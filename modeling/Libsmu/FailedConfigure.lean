import Libsmu.SampleRate
import Libsmu.Streaming

/-!
# A Configuration that Fails

`configure` sets the timer period and the packet count, frees the IN transfers and allocates
them anew, then the OUT transfers. An allocation that fails ends it there: `Transfers::alloc`
does not take back what it has allocated, and `configure` does not take back what it has set.

`Session::start` configures a session only if it has no rate yet. In a session that has one
the devices are run as they are, and `start_usb_transfers` takes the transfers one by one
from the collections: a null or bufferless one is handed on like any other.

## Main results

* `exists_unusable`: an allocation that fails leaves a transfer without a buffer.
* `leaves_usable_iff`: a device is as it was before, and can be started, after a `configure`
  that fails exactly when no allocation fails.
-/

namespace Libsmu

open Streaming (Fill)

/-! ### The transfers that a run uses -/

/-- A transfer that can be submitted. -/
def Slot.Usable : Slot → Prop
  | .buffer _ => True
  | .null | .bufferless => False

instance : (slot : Slot) → Decidable slot.Usable
  | .buffer _ => isTrue trivial
  | .null | .bufferless => isFalse not_false

/-- What `start_usb_transfers` meets with. -/
structure Kickoff where
  /-- whether libusb accepts an IN transfer -/
  ins : ℕ → Bool
  /-- what filling an OUT transfer comes to, and whether libusb accepts it -/
  outs : ℕ → Fill × Bool

/-- The loop of `start_usb_transfers` over the IN transfers: those that `submit_in_transfer`
comes to submit. -/
def usedIns (m_sample_count m_samples_per_transfer : ℕ) (accepted : ℕ → Bool) :
    List Slot → ℕ → ℕ → List Slot
  | [], _, _ => []
  | t :: ts, i, m_requested_sampleno =>
      if m_sample_count = 0 ∨ m_requested_sampleno < m_sample_count then
        if accepted i then
          t :: usedIns m_sample_count m_samples_per_transfer accepted ts (i + 1)
            (Counter.add 64 m_requested_sampleno m_samples_per_transfer)
        else [t]
      else []

/-- The loop over the OUT transfers: those that `submit_out_transfer` comes to fill. -/
def usedOuts (m_sample_count m_samples_per_transfer : ℕ) (answers : ℕ → Fill × Bool) :
    List Slot → ℕ → ℕ → List Slot
  | [], _, _ => []
  | t :: ts, i, m_out_sampleno =>
      if m_sample_count = 0 ∨ m_out_sampleno < m_sample_count then
        match answers i with
        | (.filled, true) =>
            t :: usedOuts m_sample_count m_samples_per_transfer answers ts (i + 1)
              (Counter.add 64 m_out_sampleno m_samples_per_transfer)
        | (.threw k, true) =>
            -- the exception ends it unless it came after the last requested sample
            if m_sample_count = 0 ∨ Counter.add 64 m_out_sampleno k < m_sample_count then [t]
            else
              t :: usedOuts m_sample_count m_samples_per_transfer answers ts (i + 1)
                (Counter.add 64 m_out_sampleno k)
        | (_, false) => [t]
      else []

/-- `start_usb_transfers` in a run of `samples`: the transfers it hands on. -/
def Device.start_usb_transfers (samples : ℕ) (env : Kickoff) (d : Device) : List Slot :=
  usedIns samples (d.m_samples_per_transfer.getD 0) env.ins d.m_in_transfers 0 0 ++
    usedOuts samples (d.m_samples_per_transfer.getD 0) env.outs d.m_out_transfers 0 0

/-- Everything works. -/
def Kickoff.fine : Kickoff where
  ins _ := true
  outs _ := (.filled, true)

theorem usedIns_fine (S : ℕ) (ts : List Slot) (i sampleno : ℕ) :
    usedIns 0 S Kickoff.fine.ins ts i sampleno = ts := by
  induction ts generalizing i sampleno with
  | nil => rfl
  | cons t ts ih =>
      have haccepted : Kickoff.fine.ins i = true := rfl
      rw [usedIns, if_pos (.inl rfl), if_pos haccepted, ih]

theorem usedOuts_fine (S : ℕ) (ts : List Slot) (i sampleno : ℕ) :
    usedOuts 0 S Kickoff.fine.outs ts i sampleno = ts := by
  induction ts generalizing i sampleno with
  | nil => rfl
  | cons t ts ih =>
      rw [usedOuts, if_pos (.inl rfl)]
      exact congrArg (t :: ·) (ih _ _)

/-- A continuous run in which everything works uses all transfers. -/
theorem start_usb_transfers_fine (d : Device) :
    d.start_usb_transfers 0 .fine = d.m_in_transfers ++ d.m_out_transfers := by
  rw [Device.start_usb_transfers, usedIns_fine, usedOuts_fine]

/-! ### What a failed allocation leaves -/

/-- An allocation that fails leaves a transfer without a buffer. -/
theorem exists_unusable_allocFrom {mem : Memory} {buf_size k i : ℕ}
    (h : (allocFrom mem buf_size k i).2 ≠ 0) :
    ∃ slot ∈ (allocFrom mem buf_size k i).1, ¬slot.Usable := by
  induction k generalizing i with
  | zero => exact absurd rfl h
  | succ k ih =>
      rw [allocFrom] at h ⊢
      by_cases htransfer : mem.libusb_alloc_transfer i = true
      · rw [if_pos htransfer] at h ⊢
        by_cases hmalloc : mem.malloc i = true
        · rw [if_pos hmalloc] at h ⊢
          obtain ⟨slot, hslot, hnot⟩ := ih h
          exact ⟨slot, List.mem_cons_of_mem _ hslot, hnot⟩
        · rw [if_neg hmalloc]
          exact ⟨_, List.mem_cons_self, not_false⟩
      · rw [if_neg htransfer]
        exact ⟨_, List.mem_cons_self, not_false⟩

/-- **A failed `configure` leaves an unusable transfer** in one of the collections. -/
theorem exists_unusable (d : Device) (sampleRate : ℕ) {ins outs : Memory}
    (hnot : ¬(ins.Grants 2 ∧ outs.Grants 2)) :
    ∃ slot ∈ (d.configure sampleRate ins outs).1.m_in_transfers ++
      (d.configure sampleRate ins outs).1.m_out_transfers, ¬slot.Usable := by
  simp only [Device.configure]
  generalize packets_per_transfer _ _ 2 = p
  by_cases hin : (alloc ins 2 (p * in_packet_size)).2 = 0
  · have hout : (alloc outs 2 (p * out_packet_size)).2 ≠ 0 := by
      intro hout
      have hins := (alloc_cases ins 2 (p * in_packet_size)).resolve_right
        fun h => absurd (h.2.1.symm.trans hin) (by decide)
      have houts := (alloc_cases outs 2 (p * out_packet_size)).resolve_right
        fun h => absurd (h.2.1.symm.trans hout) (by decide)
      exact hnot ⟨hins.1, houts.1⟩
    obtain ⟨slot, hslot, hbad⟩ := exists_unusable_allocFrom hout
    rw [if_neg (not_not.mpr hin)]
    refine ⟨slot, List.mem_append_right _ ?_, hbad⟩
    split
    · exact hslot
    · exact hslot
  · rw [if_pos hin]
    obtain ⟨slot, hslot, hbad⟩ := exists_unusable_allocFrom hin
    exact ⟨slot, List.mem_append_left _ hslot, hbad⟩

/-- A session with a rate and one device, which is `d`. -/
def sessionOf (d : Device) : Session :=
  { Session.init with heap := fun _ => d, m_devices := [0], m_sample_rate := 1 }

/-- It runs the device as it is. -/
theorem mem_captures_sessionOf (d : Device) (mem : ℕ → Session.Transfers) :
    ⟨d, 1⟩ ∈ ((sessionOf d).start 0 mem fun _ => .fine).1.captures := by
  have hrate : ¬({ sessionOf d with m_continuous := true } : Session).m_sample_rate = 0 :=
    one_ne_zero
  simp only [Session.start, decide_true, if_neg hrate]
  exact Session.mem_captures_of_fine (s := { sessionOf d with m_continuous := true })
    List.mem_cons_self

/-- A device after a `configure` is **left usable** if the call succeeds, or else the device is
as it was before and no later start of a session that has a rate uses a transfer without a
buffer. -/
def LeavesUsable (sampleRate : ℕ) (ins outs : Memory) (d : Device) : Prop :=
  (d.configure sampleRate ins outs).2 < 0 →
    (d.configure sampleRate ins outs).1 = d ∧
      ∀ (s : Session) (a samples : ℕ) (mem : ℕ → Session.Transfers)
        (answers : ℕ → Session.Answers), s.m_sample_rate ≠ 0 → s.captures = [] →
        s.heap a = (d.configure sampleRate ins outs).1 →
        ∀ c ∈ (s.start samples mem answers).1.captures, c.device = s.heap a →
          ∀ env, ∀ slot ∈ c.device.start_usb_transfers samples env, slot.Usable

/-- **A configuration that fails never leaves a usable device**: it is left usable exactly
when no allocation fails. -/
theorem leaves_usable_iff (d : Device) (sampleRate : ℕ) (ins outs : Memory) :
    LeavesUsable sampleRate ins outs d ↔ ins.Grants 2 ∧ outs.Grants 2 := by
  constructor
  · intro h
    by_contra hnot
    obtain ⟨-, hstart⟩ := h (configure_of_not_granted sampleRate d hnot).1
    obtain ⟨slot, hslot, hbad⟩ := exists_unusable d sampleRate hnot
    rw [← start_usb_transfers_fine] at hslot
    exact hbad (hstart (sessionOf (d.configure sampleRate ins outs).1) 0 0 (fun _ => ⟨ins, outs⟩)
      (fun _ => .fine) one_ne_zero rfl rfl _ (mem_captures_sessionOf _ _) rfl .fine slot hslot)
  · rintro ⟨hins, houts⟩ hret
    have hrate := d.rate_pos sampleRate
    rw [(configure_of_granted sampleRate d hins houts).1] at hret
    exact absurd hret (by omega)

/-- The device after `configure` at the default rate, with all its memory. -/
def configured : Device := ((Device.new "2.17" "").configure 100000 .plenty .plenty).1

/-- **A failed configuration that shows.** The buffer of the second IN transfer is not
allocated: the timer period is that of the new rate, and a start of the session uses the
transfer without a buffer. -/
theorem bufferless_transfer_used :
    (configured.configure 50000 ⟨fun _ => true, fun i => i == 0⟩ .plenty).2 = -ENOMEM ∧
      configured.m_sam_per = 240 ∧
      (configured.configure 50000 ⟨fun _ => true, fun i => i == 0⟩ .plenty).1.m_sam_per = 480 ∧
      .bufferless ∈ (configured.configure 50000 ⟨fun _ => true, fun i => i == 0⟩
        .plenty).1.start_usb_transfers 2000 .fine ∧
      ¬LeavesUsable 50000 ⟨fun _ => true, fun i => i == 0⟩ .plenty configured := by
  have hret : (configured.configure 50000 ⟨fun _ => true, fun i => i == 0⟩ .plenty).2 =
      -ENOMEM := by decide +kernel
  have hsame : (configured.configure 50000 ⟨fun _ => true, fun i => i == 0⟩ .plenty).1 ≠
      configured := by decide +kernel
  exact ⟨hret, by decide +kernel, by decide +kernel, by decide +kernel, fun h =>
    hsame (h (by rw [hret]; decide)).1⟩

end Libsmu
