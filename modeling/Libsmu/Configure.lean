import Mathlib.Data.Rat.Floor
import Mathlib.Tactic.Linarith
import Mathlib.Tactic.NormNum
import Mathlib.Tactic.Positivity

/-!
# Configuring a Device

`M1000_Device::configure` turns a requested sample rate into the timer period `m_sam_per`,
works out from it the rate that the device really samples at and how many packets a
transfer holds, and allocates the IN and OUT transfers anew. Doubles are read as exact
rationals.

Allocation may fail at any transfer: `Memory` says which calls of
`libusb_alloc_transfer` and `malloc` return memory. `Transfers::alloc` then returns with
the rest of the collection unallocated, and `configure` with an error, having changed the
timer period and the packet count already.

`Configured` says what a run needs: the transfers in place, with at least one packet each,
and a timer period whose rate is the one asked for.

## Main results

* `alloc_cases`: `Transfers::alloc` returns 0 exactly when it is given all the memory it
  asks for, and exactly then every transfer has its buffer.
* `configure_of_granted`: with all its memory, `configure` returns the rate that the timer
  clock of the device makes of the one asked for, and leaves the device configured for it.
* `configure_of_not_granted`: otherwise it returns an error and leaves the device
  configured for no rate.
-/

namespace Libsmu

/-- One entry of a transfer collection. -/
inductive Slot
  /-- `NULL` -/
  | null
  /-- a transfer whose buffer was not allocated -/
  | bufferless
  /-- a transfer with a buffer of the given size -/
  | buffer (size : ℕ)
  deriving DecidableEq

/-- Which allocations of a collection succeed. -/
structure Memory where
  libusb_alloc_transfer : ℕ → Bool
  malloc : ℕ → Bool

/-- The first `count` transfers of a collection get all their memory. -/
def Memory.Grants (mem : Memory) (count : ℕ) : Prop :=
  ∀ i < count, mem.libusb_alloc_transfer i = true ∧ mem.malloc i = true

instance (mem : Memory) (count : ℕ) : Decidable (mem.Grants count) :=
  inferInstanceAs (Decidable (∀ i < count, _))

/-- Memory for everything. -/
def Memory.plenty : Memory := ⟨fun _ => true, fun _ => true⟩

/-- `ENOMEM`. -/
def ENOMEM : ℤ := 12

/-- The loop of `Transfers::alloc` from transfer `i` on, with `k` more to allocate: the
entries and the value returned. -/
def allocFrom (mem : Memory) (buf_size : ℕ) : ℕ → ℕ → List Slot × ℤ
  | 0, _ => ([], 0)
  | k + 1, i =>
      if mem.libusb_alloc_transfer i then
        if mem.malloc i then
          (.buffer buf_size :: (allocFrom mem buf_size k (i + 1)).1,
            (allocFrom mem buf_size k (i + 1)).2)
        else (.bufferless :: List.replicate k .null, -ENOMEM)
      else (List.replicate (k + 1) .null, -ENOMEM)

/-- `Transfers::alloc`. -/
def alloc (mem : Memory) (count buf_size : ℕ) : List Slot × ℤ :=
  allocFrom mem buf_size count 0

theorem length_allocFrom (mem : Memory) (buf_size k i : ℕ) :
    (allocFrom mem buf_size k i).1.length = k := by
  induction k generalizing i with
  | zero => rfl
  | succ k ih =>
      rw [allocFrom]
      split_ifs
      · rw [List.length_cons, ih]
      · rw [List.length_cons, List.length_replicate]
      · rw [List.length_replicate]

theorem allocFrom_cases (mem : Memory) (buf_size k i : ℕ) :
    ((∀ j, i ≤ j → j < i + k → mem.libusb_alloc_transfer j = true ∧ mem.malloc j = true) ∧
        (allocFrom mem buf_size k i).2 = 0 ∧
        (allocFrom mem buf_size k i).1 = List.replicate k (.buffer buf_size)) ∨
      (¬∀ j, i ≤ j → j < i + k → mem.libusb_alloc_transfer j = true ∧ mem.malloc j = true) ∧
        (allocFrom mem buf_size k i).2 = -ENOMEM ∧
        ∀ size, (allocFrom mem buf_size k i).1 ≠ List.replicate k (.buffer size) := by
  induction k generalizing i with
  | zero => exact .inl ⟨fun j hij hj => absurd hj (Nat.not_lt.mpr hij), rfl, rfl⟩
  | succ k ih =>
      rw [allocFrom]
      by_cases htransfer : mem.libusb_alloc_transfer i = true
      · rw [if_pos htransfer]
        by_cases hmalloc : mem.malloc i = true
        · rw [if_pos hmalloc]
          rcases ih (i + 1) with ⟨hall, hret, hslots⟩ | ⟨hnot, hret, hslots⟩
          · refine .inl ⟨?_, hret, by simp only [hslots, List.replicate_succ]⟩
            intro j hij hj
            rcases Nat.eq_or_lt_of_le hij with rfl | hlt
            · exact ⟨htransfer, hmalloc⟩
            · exact hall j hlt (by omega)
          · refine .inr ⟨fun hall => hnot fun j hij hj => hall j (by omega) (by omega), hret,
              fun size heq => hslots size ?_⟩
            rw [List.replicate_succ] at heq
            exact (List.cons.inj heq).2
        · rw [if_neg hmalloc]
          refine .inr ⟨fun hall => hmalloc (hall i le_rfl (by omega)).2, rfl, ?_⟩
          intro size heq
          rw [List.replicate_succ] at heq
          exact nomatch (List.cons.inj heq).1
      · rw [if_neg htransfer]
        refine .inr ⟨fun hall => htransfer (hall i le_rfl (by omega)).1, rfl, ?_⟩
        intro size heq
        rw [List.replicate_succ, List.replicate_succ] at heq
        exact nomatch (List.cons.inj heq).1

/-- **`Transfers::alloc` either gets its memory**, returns 0 and gives every transfer its
buffer, or returns an error and leaves some transfer without one. -/
theorem alloc_cases (mem : Memory) (count buf_size : ℕ) :
    (mem.Grants count ∧ (alloc mem count buf_size).2 = 0 ∧
        (alloc mem count buf_size).1 = List.replicate count (.buffer buf_size)) ∨
      ¬mem.Grants count ∧ (alloc mem count buf_size).2 = -ENOMEM ∧
        ∀ size, (alloc mem count buf_size).1 ≠ List.replicate count (.buffer size) := by
  have hgrants : mem.Grants count ↔
      ∀ j, 0 ≤ j → j < 0 + count →
        mem.libusb_alloc_transfer j = true ∧ mem.malloc j = true := by
    constructor
    · intro h j _ hj
      exact h j (by omega)
    · intro h i hi
      exact h i (Nat.zero_le i) (by omega)
  rw [hgrants]
  exact allocFrom_cases mem buf_size count 0

/-- A device as far as its sampling is concerned. -/
structure Device where
  m_fwver : String
  m_serial : String
  /-- clock cycles per sample -/
  m_sam_per : ℤ
  /-- `none` before the first `configure` -/
  m_packets_per_transfer : Option ℕ
  /-- `none` before the first `configure` -/
  m_samples_per_transfer : Option ℕ
  m_in_transfers : List Slot
  m_out_transfers : List Slot
  deriving DecidableEq

/-- A device as `probe_device` constructs it. -/
def Device.new (fwver serial : String) : Device where
  m_fwver := fwver
  m_serial := serial
  m_sam_per := 0
  m_packets_per_transfer := none
  m_samples_per_transfer := none
  m_in_transfers := []
  m_out_transfers := []

/-- minimum clock cycles per sample (100ksps) -/
def m_min_per : ℤ := 240

/-- maximum clock cycles per sample (~1024 samples/s) -/
def m_max_per : ℤ := 24000

def chunk_size : ℕ := 256

def out_packet_size : ℕ := chunk_size * 2 * 2

def in_packet_size : ℕ := chunk_size * 4 * 2

/-- Seconds of data in the transfers of one direction. -/
def BUFFER_TIME : ℚ := 20 / 1000

/-- The initial production firmware runs the timer at 3 MHz, later ones at 48 MHz. -/
def M1K_timer_clock (fwver : String) : ℚ :=
  if fwver = "023314a*" then 3000000 else 48000000

/-- `M1000_Device::get_default_rate`. -/
def Device.get_default_rate (d : Device) : ℕ :=
  if d.m_fwver = "023314a*" then 62500 else 100000

/-- `round` of a number that is not negative. -/
def cround (x : ℚ) : ℤ := ⌊x + 1 / 2⌋

/-- The timer period for a requested rate. -/
def sam_per (clock : ℚ) (sampleRate : ℕ) : ℤ :=
  let per := cround (1 / (sampleRate : ℚ) * clock) / 2
  if per < m_min_per then m_min_per else if per > m_max_per then m_max_per else per

/-- The rate a timer period amounts to. -/
def set_sample_rate (clock : ℚ) (per : ℤ) : ℤ :=
  cround (1 / ((per : ℚ) / clock) / 2)

/-- The packets in each of `transfers` transfers for a timer period. -/
def packets_per_transfer (clock : ℚ) (per : ℤ) (transfers : ℕ) : ℕ :=
  ⌈BUFFER_TIME / ((per : ℚ) / clock * chunk_size) / transfers⌉.toNat

/-- `M1000_Device::configure`: the device after the call, and what it returns. -/
def Device.configure (sampleRate : ℕ) (ins outs : Memory) (d : Device) : Device × ℤ :=
  let clock := M1K_timer_clock d.m_fwver
  let per := sam_per clock sampleRate
  let transfers := 2
  let packets := packets_per_transfer clock per transfers
  let d := { d with
    m_sam_per := per
    m_packets_per_transfer := some packets
    m_samples_per_transfer := some (packets * chunk_size)
    m_in_transfers := (alloc ins transfers (packets * in_packet_size)).1 }
  let ret := (alloc ins transfers (packets * in_packet_size)).2
  if ret ≠ 0 then (d, ret)
  else
    let d := { d with
      m_out_transfers := (alloc outs transfers (packets * out_packet_size)).1 }
    let ret := (alloc outs transfers (packets * out_packet_size)).2
    if ret < 0 then (d, ret) else (d, set_sample_rate clock per)

/-- The rate that the timer clock of a device makes of the rate asked for. -/
def Device.rate (d : Device) (sampleRate : ℕ) : ℤ :=
  set_sample_rate (M1K_timer_clock d.m_fwver) (sam_per (M1K_timer_clock d.m_fwver) sampleRate)

/-- **Ready to sample at `rate`**: both collections hold two transfers with buffers for the
packets of the device, at least one each, and the timer period is one of that rate. -/
structure Configured (d : Device) (rate : ℤ) : Prop where
  packets : ∃ p, 0 < p ∧ d.m_packets_per_transfer = some p ∧
    d.m_samples_per_transfer = some (p * chunk_size) ∧
    d.m_in_transfers = List.replicate 2 (.buffer (p * in_packet_size)) ∧
    d.m_out_transfers = List.replicate 2 (.buffer (p * out_packet_size))
  sam_per : set_sample_rate (M1K_timer_clock d.m_fwver) d.m_sam_per = rate

/-! ### The numbers of a configuration -/

theorem M1K_timer_clock_pos (fwver : String) : 3000000 ≤ M1K_timer_clock fwver := by
  rw [M1K_timer_clock]
  split <;> norm_num

/-- The timer period is within the limits of the hardware. -/
theorem sam_per_bounds (clock : ℚ) (sampleRate : ℕ) :
    m_min_per ≤ sam_per clock sampleRate ∧ sam_per clock sampleRate ≤ m_max_per := by
  unfold sam_per m_min_per m_max_per
  simp only
  split
  · exact ⟨le_refl _, by norm_num⟩
  · split
    · exact ⟨by norm_num, le_refl _⟩
    · constructor <;> omega

/-- A period within the limits leaves room for a packet in each transfer. -/
theorem packets_per_transfer_pos {clock : ℚ} {per : ℤ} {transfers : ℕ} (hclock : 0 < clock)
    (hper : 0 < per) (htransfers : 0 < transfers) :
    0 < packets_per_transfer clock per transfers := by
  have hper' : (0 : ℚ) < per := by exact_mod_cast hper
  have htransfers' : (0 : ℚ) < transfers := by exact_mod_cast htransfers
  have hpos : 0 < BUFFER_TIME / ((per : ℚ) / clock * chunk_size) / transfers := by
    rw [BUFFER_TIME, chunk_size]
    positivity
  have hceil := Int.ceil_pos.mpr hpos
  rw [packets_per_transfer]
  omega

/-- A period within the limits has a positive rate. -/
theorem set_sample_rate_pos {clock : ℚ} {per : ℤ} (hclock : 3000000 ≤ clock) (hper : 0 < per)
    (hmax : per ≤ m_max_per) : 0 < set_sample_rate clock per := by
  have hper' : (0 : ℚ) < per := by exact_mod_cast hper
  have hmax' : (per : ℚ) ≤ 24000 := by exact_mod_cast hmax
  have hrate : 1 ≤ 1 / ((per : ℚ) / clock) / 2 := by
    rw [one_div_div, le_div_iff₀ (by norm_num), le_div_iff₀ hper']
    linarith
  rw [set_sample_rate, cround]
  refine Int.floor_pos.mpr ?_
  linarith

theorem Device.rate_pos (d : Device) (sampleRate : ℕ) : 0 < d.rate sampleRate := by
  have hbounds := sam_per_bounds (M1K_timer_clock d.m_fwver) sampleRate
  have hper := lt_of_lt_of_le (show (0 : ℤ) < m_min_per by decide) hbounds.1
  exact set_sample_rate_pos (M1K_timer_clock_pos d.m_fwver) hper hbounds.2

/-! ### What a configuration returns -/

/-- A device is configured for one rate at most. -/
theorem Configured.rate_unique {d : Device} {rate rate' : ℤ} (h : Configured d rate)
    (h' : Configured d rate') : rate = rate' :=
  h.sam_per.symm.trans h'.sam_per

theorem not_configured_new (fwver serial : String) (rate : ℤ) :
    ¬Configured (.new fwver serial) rate := by
  intro h
  obtain ⟨p, -, hp, -⟩ := h.packets
  exact nomatch hp

theorem Device.configure_fwver (sampleRate : ℕ) (ins outs : Memory) (d : Device) :
    (d.configure sampleRate ins outs).1.m_fwver = d.m_fwver := by
  rw [Device.configure]
  simp only
  split
  · rfl
  · split <;> rfl

theorem Device.configure_m_serial (sampleRate : ℕ) (ins outs : Memory) (d : Device) :
    (d.configure sampleRate ins outs).1.m_serial = d.m_serial := by
  rw [Device.configure]
  simp only
  split
  · rfl
  · split <;> rfl

/-- The timer period is set whatever comes of the transfers. -/
theorem Device.configure_m_sam_per (sampleRate : ℕ) (ins outs : Memory) (d : Device) :
    (d.configure sampleRate ins outs).1.m_sam_per =
      sam_per (M1K_timer_clock d.m_fwver) sampleRate := by
  rw [Device.configure]
  simp only
  split
  · rfl
  · split <;> rfl

theorem Device.configure_m_packets_per_transfer (sampleRate : ℕ) (ins outs : Memory)
    (d : Device) : (d.configure sampleRate ins outs).1.m_packets_per_transfer =
      some (packets_per_transfer (M1K_timer_clock d.m_fwver)
        (sam_per (M1K_timer_clock d.m_fwver) sampleRate) 2) := by
  rw [Device.configure]
  simp only
  split
  · rfl
  · split <;> rfl

theorem Device.configure_rate (sampleRate sampleRate' : ℕ) (ins outs : Memory) (d : Device) :
    (d.configure sampleRate ins outs).1.rate sampleRate' = d.rate sampleRate' := by
  simp only [Device.rate]
  rw [Device.configure_fwver]

/-- **With all its memory `configure` succeeds** and leaves the device configured for the
rate it returns. -/
theorem configure_of_granted (sampleRate : ℕ) {ins outs : Memory} (d : Device)
    (hins : ins.Grants 2) (houts : outs.Grants 2) :
    (d.configure sampleRate ins outs).2 = d.rate sampleRate ∧
      Configured (d.configure sampleRate ins outs).1 (d.rate sampleRate) := by
  have hbounds := sam_per_bounds (M1K_timer_clock d.m_fwver) sampleRate
  have hclock := M1K_timer_clock_pos d.m_fwver
  have hper := lt_of_lt_of_le (show (0 : ℤ) < m_min_per by decide) hbounds.1
  have hpackets : 0 < packets_per_transfer (M1K_timer_clock d.m_fwver)
      (sam_per (M1K_timer_clock d.m_fwver) sampleRate) 2 :=
    packets_per_transfer_pos (lt_of_lt_of_le (by norm_num) hclock) hper (by decide)
  simp only [Device.configure, Device.rate]
  generalize sam_per (M1K_timer_clock d.m_fwver) sampleRate = per at hpackets
  generalize packets_per_transfer (M1K_timer_clock d.m_fwver) per 2 = p at hpackets
  rcases alloc_cases ins 2 (p * in_packet_size) with ⟨-, hin, hinslots⟩ | ⟨hnot, -⟩
  · rcases alloc_cases outs 2 (p * out_packet_size) with ⟨-, hout, houtslots⟩ | ⟨hnot, -⟩
    · rw [if_neg (not_not.mpr hin), if_neg (by rw [hout]; decide)]
      exact ⟨rfl, ⟨p, hpackets, rfl, rfl, hinslots, houtslots⟩, rfl⟩
    · exact absurd houts hnot
  · exact absurd hins hnot

/-- **Without all its memory `configure` fails** and leaves the device configured for no
rate. -/
theorem configure_of_not_granted (sampleRate : ℕ) {ins outs : Memory} (d : Device)
    (hnot : ¬(ins.Grants 2 ∧ outs.Grants 2)) :
    (d.configure sampleRate ins outs).2 < 0 ∧
      ∀ rate, ¬Configured (d.configure sampleRate ins outs).1 rate := by
  simp only [Device.configure]
  generalize sam_per (M1K_timer_clock d.m_fwver) sampleRate = per
  generalize packets_per_transfer (M1K_timer_clock d.m_fwver) per 2 = p
  rcases alloc_cases ins 2 (p * in_packet_size) with ⟨hins, hin, -⟩ | ⟨-, hin, hinslots⟩
  · rw [if_neg (not_not.mpr hin)]
    rcases alloc_cases outs 2 (p * out_packet_size) with ⟨houts, -⟩ | ⟨-, hout, houtslots⟩
    · exact absurd ⟨hins, houts⟩ hnot
    · rw [if_pos (by rw [hout]; decide)]
      refine ⟨by rw [hout]; decide, ?_⟩
      intro rate h
      obtain ⟨q, -, -, -, -, hq⟩ := h.packets
      exact houtslots _ hq
  · have hne : (alloc ins 2 (p * in_packet_size)).2 ≠ 0 := by
      rw [hin]
      decide
    rw [if_pos hne]
    refine ⟨by rw [hin]; decide, ?_⟩
    intro rate h
    obtain ⟨q, -, -, -, hq, -⟩ := h.packets
    exact hinslots _ hq

end Libsmu
