import Libsmu.LiveSession

/-!
# Starting Several Devices at Once

The bus counts frames, and eight microframes in each. Before a session of several devices runs
a device, it reads the microframe that the device is in, and tells the device to start sampling
31 frames later, at the start of a frame. The count goes up to 2048 frames.

The devices read one after the other, and each is told what its own reading gives.

## Main results

* `sync_m_sof_start`: what a reading gives.
* `liesAfter_of_sameFrame`: what a reading gives lies after all readings of its frame.
* `synchronized_iff`: all devices are told to start at one time, which lies after every reading,
  exactly when all readings are from one frame.
-/

namespace Libsmu

open Session (Transfers)
open Board (Launch)

/-! ### Frames -/

/-- The microframes that the count of the bus goes through. -/
def microframes : ℕ := 2 ^ 14

/-- The frame of a microframe. -/
def frame (location : ℕ) : ℕ := location / 8 % 2 ^ 11

/-- A location that comes up after a reading, less than half a round of the count later. -/
def LiesAfter (reading location : ℕ) : Prop :=
  let ahead := (location + microframes - reading % microframes) % microframes
  0 < ahead ∧ ahead < microframes / 2

instance (reading location : ℕ) : Decidable (LiesAfter reading location) :=
  inferInstanceAs (Decidable (_ ∧ _))

/-- What `sync` makes of a reading: the frame 31 frames later. -/
theorem sync_m_sof_start {env : Launch} (h : 0 ≤ env.sync) (b : Board) :
    (b.sync env).1.m_sof_start = (env.microframe / 8 + 31) % 2 ^ 11 * 8 := by
  have hread : ¬env.sync < 0 := by omega
  have hmask : (env.microframe >>> 3 + 0x1f) &&& 0x7FF = (env.microframe / 8 + 31) % 2 ^ 11 := by
    rw [Nat.shiftRight_eq_div_pow]
    exact Nat.and_two_pow_sub_one_eq_mod _ 11
  simp only [Board.sync, if_neg hread, hmask, Nat.shiftLeft_eq]

/-- Two readings give one location exactly when they are from one frame. -/
theorem lead_eq_iff (reading reading' : ℕ) :
    (reading / 8 + 31) % 2 ^ 11 * 8 = (reading' / 8 + 31) % 2 ^ 11 * 8 ↔
      frame reading = frame reading' := by
  rw [frame, frame]
  omega

/-- **What a reading gives lies after every reading of its frame.** -/
theorem liesAfter_of_sameFrame {reading reading' : ℕ} (h : frame reading = frame reading') :
    LiesAfter reading' ((reading / 8 + 31) % 2 ^ 11 * 8) := by
  rw [frame, frame] at h
  simp only [LiesAfter, microframes]
  omega

/-! ### The requests of a start -/

namespace Board

/-- The calls before `run`, up to the first one that fails. -/
def ready (env : Launch) (synchronized : Bool) (b : Board) : Board × ℤ :=
  let r := b.on env
  if r.2 ≠ 0 then r else if synchronized then r.1.sync env else (r.1, 0)

/-- A start is these calls and `run`. -/
theorem start_eq (env : Launch) (synchronized : Bool) (m_sam_per samples : ℕ) (b : Board) :
    b.start env synchronized m_sam_per samples =
      if (b.ready env synchronized).2 ≠ 0 then b.ready env synchronized
      else (b.ready env synchronized).1.run env m_sam_per samples := by
  simp only [start, ready]
  by_cases hon : (b.on env).2 = 0
  · simp only [hon, ne_eq, not_true_eq_false, if_false]
  · simp only [hon, ne_eq, not_false_eq_true, if_true]

/-- The request with which `run` starts the sampling, when it is called. -/
def runRequest (env : Launch) (synchronized : Bool) (m_sam_per : ℕ) (b : Board) :
    Option Request :=
  let r := b.ready env synchronized
  if r.2 ≠ 0 then none else some (samplingRequest m_sam_per r.1.m_sof_start)

/-- A device that is synchronized is told what its reading gives. -/
theorem wIndex_of_runRequest {env : Launch} {m_sam_per : ℕ} {b : Board} {request : Request}
    (h : b.runRequest env true m_sam_per = some request) :
    request.wIndex = (env.microframe / 8 + 31) % 2 ^ 11 * 8 := by
  rw [runRequest] at h
  split at h
  · cases h
  · rename_i hready
    obtain rfl := Option.some.inj h
    simp only [ready, if_true] at hready ⊢
    by_cases hon : (b.on env).2 = 0
    · rw [if_neg (not_not.mpr hon)] at hready ⊢
      obtain ⟨-, -, hsync⟩ := sync_cases env (b.on env).1
      exact sync_m_sof_start (hsync.mp (not_not.mp hready)) _
    · rw [if_pos hon] at hready
      exact absurd hon hready

end Board

namespace Live

/-- The requests with which the loop of `Session::start` has devices start sampling, each with
the reading that came before it. -/
def launchedFrom (env : ℕ → Launch) (samples : ℕ) : List ℕ → Live → List (ℕ × Request)
  | [], _ => []
  | d :: ds, s =>
      let request := (s.board d).runRequest (env d) (Synchronized s.toSession)
        (m_sam_per s.toSession d)
      let r := s.startOne env samples d
      request.toList.map (fun request => ((env d).microframe, request)) ++
        if r.2 ≠ 0 then [] else launchedFrom env samples ds (r.1.count d)

/-- The requests of `Session::start`. -/
def launched (env : ℕ → Launch) (samples : ℕ) (mem : ℕ → Transfers) (s : Live) :
    List (ℕ × Request) :=
  launchedFrom env samples (s.prepare samples mem).m_devices (s.prepare samples mem)

/-- In a session of several devices each is told what its reading gives. -/
theorem wIndex_of_mem_launchedFrom {env : ℕ → Launch} {samples : ℕ} {ds : List ℕ} {s : Live}
    (hs : Synchronized s.toSession = true) {p : ℕ × Request}
    (hp : p ∈ launchedFrom env samples ds s) : p.2.wIndex = (p.1 / 8 + 31) % 2 ^ 11 * 8 := by
  induction ds generalizing s with
  | nil => exact absurd hp List.not_mem_nil
  | cons d ds ih =>
      rw [launchedFrom, hs] at hp
      rcases List.mem_append.mp hp with hp | hp
      · obtain ⟨request, hrequest, rfl⟩ := List.mem_map.mp hp
        exact Board.wIndex_of_runRequest (Option.mem_toList.mp hrequest)
      · split at hp
        · exact absurd hp List.not_mem_nil
        · exact ih (s := (s.startOne env samples d).1.count d) hs hp

/-- **A synchronized start**: all devices that are run are told one location to start at, which
lies after every reading, exactly when all readings are from one frame. -/
theorem synchronized_iff (env : ℕ → Launch) (samples : ℕ) (mem : ℕ → Transfers) {s : Live}
    (hs : 1 < s.m_devices.length) :
    (∀ p ∈ s.launched env samples mem, ∀ q ∈ s.launched env samples mem,
        p.2.wIndex = q.2.wIndex ∧ LiesAfter q.1 p.2.wIndex) ↔
      ∀ p ∈ s.launched env samples mem, ∀ q ∈ s.launched env samples mem,
        frame p.1 = frame q.1 := by
  have hsync : Synchronized (s.prepare samples mem).toSession = true := by
    obtain ⟨heap, rate, heq⟩ := prepare_frame samples mem s
    rw [heq]
    exact decide_eq_true hs
  have htold : ∀ p ∈ s.launched env samples mem, p.2.wIndex = (p.1 / 8 + 31) % 2 ^ 11 * 8 :=
    fun p hp => wIndex_of_mem_launchedFrom hsync hp
  constructor
  · rintro h p hp q hq
    rw [← lead_eq_iff, ← htold p hp, ← htold q hq]
    exact (h p hp q hq).1
  · rintro h p hp q hq
    rw [htold p hp, htold q hq]
    exact ⟨(lead_eq_iff _ _).mpr (h p hp q hq), liesAfter_of_sameFrame (h p hp q hq)⟩

/-- A session of two devices, as they are before the start. -/
def twoDevices : Live := { init fun _ => 2 with m_devices := [1, 2], m_sample_rate := 100000 }

/-- All transfers work, and the devices read these microframes. -/
def readings (location location' : ℕ) (d : ℕ) : Launch :=
  ⟨0, fun _ => 0, 2, if d = 1 then location else location', 0⟩

/-- **Readings of two frames**, which lie one frame apart, give two locations. -/
theorem readings_of_two_frames :
    ¬∀ p ∈ twoDevices.launched (readings 807 808) 1 plenty,
      ∀ q ∈ twoDevices.launched (readings 807 808) 1 plenty,
        p.2.wIndex = q.2.wIndex ∧ LiesAfter q.1 p.2.wIndex := by
  decide +kernel

/-- Readings of one frame give one location. -/
theorem readings_of_one_frame :
    (twoDevices.launched (readings 801 807) 1 plenty).map (fun p => (p.1, p.2.wIndex)) =
        [(801, 1048), (807, 1048)] ∧
      ∀ p ∈ twoDevices.launched (readings 801 807) 1 plenty,
        ∀ q ∈ twoDevices.launched (readings 801 807) 1 plenty,
          p.2.wIndex = q.2.wIndex ∧ LiesAfter q.1 p.2.wIndex :=
  ⟨by decide +kernel,
    (synchronized_iff (readings 801 807) 1 plenty (by decide)).mpr (by decide +kernel)⟩

end Live

end Libsmu
