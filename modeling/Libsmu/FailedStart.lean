import Libsmu.LiveSession

/-!
# What a Failed Start Leaves Behind

`Session::start` says first whether the session is continuous, and then starts and counts
the devices one by one. At a failing device it stops and returns the error: what it has set
stays set, and the devices before stream on and stay counted. `Session::run` returns that
error at once, so that nothing ends the session either. An active session then refuses
`add`, `remove` and `configure`, a continuous one a `run` of a number of samples.

## Main results

* `failed_iff`: a failed call leaves the session as active and as continuous as it was, with
  the same devices streaming, exactly when it was refused, or the session was of that kind
  before and the first device failed.
* `NotBusy.of_idle`: an idle session refuses no following call.
* `first_left_streaming`: the second of two devices fails, and the first one streams on.
-/

namespace Libsmu

open Session (EBUSY ENODEV Transfers)

namespace Live

open Board (Launch Outcome)

/-! ### Failing calls -/

/-- A call that starts the session. -/
inductive Call
  | start
  | run (ending : Ending)

variable {samples : ℕ} {mem : ℕ → Transfers} {env : ℕ → Launch} {s t : Live}

/-- The session after a call. -/
def Call.after (samples : ℕ) (mem : ℕ → Transfers) (env : ℕ → Launch) (s : Live) : Call → Live
  | .start => (s.start samples mem env).1
  | .run ending => (s.run samples mem env ending).1

/-- `run` refuses a number of samples in a continuous session. -/
def Call.Refused (samples : ℕ) (s : Live) : Call → Prop
  | .start => False
  | .run _ => 0 < samples ∧ s.m_continuous = true

instance (samples : ℕ) (s : Live) : (call : Call) → Decidable (call.Refused samples s)
  | .start => isFalse id
  | .run _ => inferInstanceAs (Decidable (_ ∧ _))

/-- A call fails: `run` refuses it, or `start` returns an error. -/
def Call.Fails (samples : ℕ) (mem : ℕ → Transfers) (env : ℕ → Launch) (s : Live) (call : Call) :
    Prop :=
  call.Refused samples s ∨ (s.start samples mem env).2 ≠ 0

instance (samples : ℕ) (mem : ℕ → Transfers) (env : ℕ → Launch) (s : Live) (call : Call) :
    Decidable (call.Fails samples mem env s) :=
  inferInstanceAs (Decidable (_ ∨ _))

/-- A failing call returns what `start` returns, without ending the session. -/
theorem run_of_fails {ending : Ending} (hfails : (Call.run ending).Fails samples mem env s) :
    s.run samples mem env ending =
      if 0 < samples ∧ s.m_continuous = true then (s, .returned (-EBUSY))
      else ((s.start samples mem env).1, .returned (s.start samples mem env).2) := by
  rw [run]
  by_cases hrefused : 0 < samples ∧ s.m_continuous = true
  · rw [if_pos hrefused, if_pos hrefused]
  · rw [if_neg hrefused, if_neg hrefused]
    exact if_pos (hfails.resolve_left hrefused)

/-! ### What is left behind -/

/-- **The session is left alone**: it is as active and as continuous as it was, and the same
devices stream. -/
def LeftAlone (s t : Live) : Prop :=
  t.m_continuous = s.m_continuous ∧ t.m_active_devices = s.m_active_devices ∧
    t.streaming = s.streaming

instance (s t : Live) : Decidable (LeftAlone s t) :=
  inferInstanceAs (Decidable (_ ∧ _ ∧ _))

/-- **A call does no harm by failing**: it is refused, or the session is already of the kind
asked for and the first device fails. -/
def Call.Harmless (samples : ℕ) (env : ℕ → Launch) (s : Live) (call : Call) : Prop :=
  call.Refused samples s ∨
    s.m_continuous = decide (samples = 0) ∧
      ∀ d ∈ s.m_devices.head?, ¬(env d).Works (Synchronized s.toSession) (s.board d)

instance (samples : ℕ) (env : ℕ → Launch) (s : Live) (call : Call) :
    Decidable (call.Harmless samples env s) :=
  inferInstanceAs (Decidable (_ ∨ _ ∧ ∀ d ∈ s.m_devices.head?, _))

/-- No device is started exactly when the first one fails. -/
theorem started_eq_nil_iff (env : ℕ → Launch) (s : Live) (ds : List ℕ) :
    started env s ds = [] ↔
      ∀ d ∈ ds.head?, ¬(env d).Works (Synchronized s.toSession) (s.board d) := by
  cases ds with
  | nil => simp [started]
  | cons d ds =>
      by_cases hworks : (env d).Works (Synchronized s.toSession) (s.board d)
      · have hcons : started env s (d :: ds) = d :: started env s ds :=
          List.takeWhile_cons_of_pos (decide_eq_true hworks)
        simp [hcons, hworks]
      · have hnil : started env s (d :: ds) = [] :=
          List.takeWhile_cons_of_neg (by simpa using hworks)
        simp [hnil, hworks]

/-- `start` leaves the session alone exactly when it is of the kind asked for and no device
is started. -/
theorem start_leftAlone_iff (samples : ℕ) (mem : ℕ → Transfers) (env : ℕ → Launch)
    (hs : s.m_devices.Nodup) :
    LeftAlone s (s.start samples mem env).1 ↔
      s.m_continuous = decide (samples = 0) ∧
        ∀ d ∈ s.m_devices.head?, ¬(env d).Works (Synchronized s.toSession) (s.board d) := by
  obtain ⟨⟨heap, rate, board, captures, hfst, -⟩, -⟩ := start_cases samples mem env hs
  rw [LeftAlone, hfst, ← started_eq_nil_iff]
  constructor
  · rintro ⟨hcontinuous, -, hstreaming⟩
    exact ⟨hcontinuous.symm, List.append_right_eq_self.mp hstreaming⟩
  · rintro ⟨hcontinuous, hnil⟩
    simp only [hnil, List.append_nil, List.length_nil, Function.iterate_zero, id_eq, and_true,
      hcontinuous]

/-! ### The calls that follow -/

theorem zero_ne_neg_EBUSY : (0 : ℤ) ≠ -EBUSY := by decide

theorem neg_one_ne_neg_EBUSY : (-1 : ℤ) ≠ -EBUSY := by decide

theorem neg_ENOMEM_ne_neg_EBUSY : -ENOMEM ≠ -EBUSY := by decide

/-- What `configure` of a device returns: that there is no memory, or a rate. -/
theorem configure_snd_ne_EBUSY (sampleRate : ℕ) (ins outs : Memory) (d : Device) :
    (d.configure sampleRate ins outs).2 ≠ -EBUSY := by
  by_cases hmem : ins.Grants 2 ∧ outs.Grants 2
  · have hpos := d.rate_pos sampleRate
    rw [(configure_of_granted sampleRate d hmem.1 hmem.2).1, EBUSY]
    omega
  · simp only [Device.configure]
    generalize sam_per (M1K_timer_clock d.m_fwver) sampleRate = per
    generalize packets_per_transfer (M1K_timer_clock d.m_fwver) per 2 = p
    rcases alloc_cases ins 2 (p * in_packet_size) with ⟨hins, hin, -⟩ | ⟨-, hin, -⟩
    · rw [if_neg (not_not.mpr hin)]
      rcases alloc_cases outs 2 (p * out_packet_size) with ⟨houts, -⟩ | ⟨-, hout, -⟩
      · exact absurd ⟨hins, houts⟩ hmem
      · rw [if_pos (by rw [hout]; decide), hout]
        exact neg_ENOMEM_ne_neg_EBUSY
    · rw [if_pos (by rw [hin]; decide), hin]
      exact neg_ENOMEM_ne_neg_EBUSY

/-- Nor does the loop of `Session::configure`. -/
theorem configureFrom_snd_ne_EBUSY (sampleRate : ℕ) (mem : ℕ → Transfers) (ds : List ℕ)
    (heap : ℕ → Device) {ret : ℤ} (hret : ret ≠ -EBUSY) :
    (Session.configureFrom sampleRate mem ds heap ret).2 ≠ -EBUSY := by
  induction ds generalizing heap ret with
  | nil => exact hret
  | cons d ds ih =>
      have hd := configure_snd_ne_EBUSY sampleRate (mem d).ins (mem d).outs (heap d)
      rw [Session.configureFrom]
      split
      · exact hd
      · exact ih _ hd

/-- No call is busy: `add` and `remove` return `EBUSY` only if the device does, `configure`
never, and `run` is not refused. -/
structure NotBusy (t : Live) : Prop where
  add : ∀ device claim, claim ≠ -EBUSY → (t.toSession.add device claim).2 ≠ -EBUSY
  remove : ∀ device detached release, release ≠ -EBUSY →
    (t.toSession.remove device detached release).2 ≠ -EBUSY
  configure : ∀ sampleRate mem, (t.toSession.configure sampleRate mem).2 ≠ -EBUSY
  run : ∀ samples ending, ¬(Call.run ending).Refused samples t

/-- In a session that is neither active nor continuous no call is busy. -/
theorem NotBusy.of_idle (hidle : t.m_active_devices = 0) (hcontinuous : t.m_continuous = false) :
    NotBusy t where
  add device claim hclaim := by
    rw [Session.add.eq_def, if_neg (not_not.mpr hidle)]
    cases device with
    | none => exact neg_one_ne_neg_EBUSY
    | some d =>
        simp only
        split
        · exact hclaim
        · exact hclaim
  remove device detached release hrelease := by
    rw [Session.remove.eq_def, if_neg (not_not.mpr hidle)]
    cases device with
    | none => exact neg_one_ne_neg_EBUSY
    | some d =>
        have hret : (if detached = true ∧ release = -ENODEV then 0 else release) ≠ -EBUSY := by
          split
          · exact zero_ne_neg_EBUSY
          · exact hrelease
        simp only
        generalize (if detached = true ∧ release = -ENODEV then 0 else release) = ret at hret
        split
        · exact hret
        · exact hret
  configure sampleRate mem := by
    have hfrom := configureFrom_snd_ne_EBUSY (t.requested sampleRate) mem t.m_devices t.heap
      zero_ne_neg_EBUSY
    rw [Session.configure, if_neg (not_not.mpr hidle)]
    split
    · exact zero_ne_neg_EBUSY
    · simp only
      split
      · exact hfrom
      · exact hfrom
  run samples ending hrefused := by
    rw [Call.Refused, hcontinuous] at hrefused
    exact absurd hrefused.2 (by decide)

/-- **What a failed call leaves behind.** It leaves the session alone exactly when it does no
harm. If the session was neither active nor continuous before, no following call is then
refused because of it. -/
theorem failed_iff (call : Call) (hs : s.m_devices.Nodup)
    (hfails : call.Fails samples mem env s) :
    (LeftAlone s (call.after samples mem env s) ↔ call.Harmless samples env s) ∧
      (LeftAlone s (call.after samples mem env s) → s.m_active_devices = 0 →
        s.m_continuous = false → NotBusy (call.after samples mem env s)) := by
  refine ⟨?_, fun h hidle hcontinuous => .of_idle (h.2.1.trans hidle) (h.1.trans hcontinuous)⟩
  cases call with
  | start =>
      rw [Call.after, start_leftAlone_iff samples mem env hs]
      exact ⟨.inr, fun h => h.resolve_left id⟩
  | run ending =>
      rw [Call.after, run_of_fails hfails]
      by_cases hrefused : 0 < samples ∧ s.m_continuous = true
      · rw [if_pos hrefused]
        exact ⟨fun _ => .inl hrefused, fun _ => ⟨rfl, rfl, rfl⟩⟩
      · rw [if_neg hrefused, start_leftAlone_iff samples mem env hs]
        exact ⟨.inr, fun h => h.resolve_left hrefused⟩

/-! ### Two devices -/

/-- Two configured devices that are not running. -/
def twoIdle : Live where
  toSession := { Session.init with m_devices := [0, 1], m_sample_rate := 100000 }
  board _ := .new (217 / 100)
  m_cancellation := 0
  streaming := []

/-- One device cannot be told to start sampling, the other one works. -/
def stuck (d e : ℕ) : Launch where
  alt_setting := 0
  on _ := 0
  sync := 0
  microframe := 0
  run := if e = d then -1 else 0

/-- A noncontinuous start whose first device fails. -/
theorem failed_iff_first :
    (twoIdle.start 1000 plenty (stuck 0)).2 = -5 ∧
      LeftAlone twoIdle (Call.start.after 1000 plenty (stuck 0) twoIdle) := by
  have hret : (twoIdle.start 1000 plenty (stuck 0)).2 = -5 := by decide +kernel
  have hfails : Call.start.Fails 1000 plenty (stuck 0) twoIdle := .inr (by rw [hret]; decide)
  exact ⟨hret, (failed_iff .start (by decide) hfails).1.mpr (by decide)⟩

/-- **The first device streams on** when a continuous start fails at the second one: the
session is active and continuous. -/
theorem first_left_streaming : ∃ t ret,
    twoIdle.start 0 plenty (stuck 1) = (t, ret) ∧ ret = -5 ∧ t.m_active_devices = 1 ∧
      t.m_continuous = true ∧ t.streaming = [0] ∧ ¬LeftAlone twoIdle t := by
  refine ⟨_, _, rfl, ?_⟩
  decide +kernel

end Live

end Libsmu
