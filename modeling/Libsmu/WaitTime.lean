import Libsmu.Membership
import Libsmu.Restart
import Libsmu.TimerPeriods

/-!
# How Long `end` Waits

`end` waits for the devices to complete for as many seconds as `m_samples` samples take at the
rate of the session, rounded down, and two seconds more. `m_samples` has 32 bits, no
constructor sets it, and of the two calls that begin a capture only `run` does, before it
calls `start`.

`Timed` adds `m_samples` to a session with its devices, with a record of the waits for
captures of a number of samples. The rate of a session is one that `configure` returned, which is
at most 100000.

## Main results

* `longEnough_iff`: a wait is long enough if the samples fit the seconds times the rate.
* `step_toLive`: forgetting `m_samples`, a step is one of `Live.machine`.
* `waits_iff`: every wait of a run is long enough exactly when `run` is called for less than
  `2 ^ 32` samples, and `end` for a capture that `start` began only if what `run` last
  recorded stands for enough of them.
-/

namespace Libsmu

open Session (Transfers)
open Board (Launch)

/-! ### Waiting -/

/-- The seconds for which `Session::end` is prepared to wait. -/
def waitTime (m_samples : ℕ) (m_sample_rate : ℤ) : ℕ :=
  if m_sample_rate ≠ 0 then m_samples / m_sample_rate.toNat + 1 + 1 else 0

/-- A wait of `end` for a capture of a number of samples. -/
structure Wait where
  samples : ℕ
  m_sample_rate : ℤ
  waitTime : ℕ
  deriving DecidableEq

/-- **The wait is long enough** for a session that has a rate: the samples take no longer. -/
def Wait.LongEnough (w : Wait) : Prop :=
  0 < w.m_sample_rate → (w.samples : ℚ) / w.m_sample_rate ≤ w.waitTime

/-- The time of `n` samples at a rate. -/
theorem longEnough_iff {n m_samples : ℕ} {rate : ℤ} :
    Wait.LongEnough ⟨n, rate, waitTime m_samples rate⟩ ↔
      (0 < rate → n ≤ rate.toNat * (m_samples / rate.toNat + 2)) := by
  rw [Wait.LongEnough]
  refine imp_congr_right fun hrate => ?_
  obtain ⟨r, rfl⟩ := Int.eq_ofNat_of_zero_le hrate.le
  have hr : 0 < r := Int.natCast_pos.mp hrate
  have hpos : (0 : ℚ) < r := by exact_mod_cast hr
  simp only [waitTime, if_pos hrate.ne', Int.toNat_natCast, Int.cast_natCast]
  rw [div_le_iff₀ hpos, Nat.mul_comm r]
  exact_mod_cast Iff.rfl

/-- What a number of samples stands for once it is divided and rounded. -/
theorem mul_div_add_two_bounds {r : ℕ} (hr : 0 < r) (m : ℕ) :
    m < r * (m / r + 2) ∧ r * (m / r + 2) ≤ m + 2 * r := by
  have hle := Nat.mul_div_le m r
  have hlt := Nat.lt_mul_div_succ m hr
  rw [Nat.mul_add] at hlt ⊢
  constructor <;> omega

/-- With a rate that devices have, a number of samples is waited for if it has 32 bits. -/
theorem le_wait_iff {r : ℕ} (hr : 0 < r) (hle : r ≤ 100000) (n : ℕ) :
    n ≤ r * (n % 2 ^ 32 / r + 2) ↔ n < 2 ^ 32 := by
  obtain ⟨hlt, hmax⟩ := mul_div_add_two_bounds hr (n % 2 ^ 32)
  constructor
  · intro h
    by_contra hbig
    have hdiv := Nat.div_add_mod n (2 ^ 32)
    have hone : 1 ≤ n / 2 ^ 32 := (Nat.one_le_div_iff (by decide)).mpr (by omega)
    omega
  · intro h
    rw [Nat.mod_eq_of_lt h] at hlt ⊢
    exact hlt.le

/-! ### The rates of a session -/

/-- No period has a rate above 100000. -/
theorem periodRate_le {clock p : ℕ} (hclock : clock ≤ 48000000) (hp : 240 ≤ p) :
    periodRate clock p ≤ 100000 := by
  obtain ⟨hrate, -⟩ := periodRate_bounds clock (show 0 < p by omega)
  by_contra hlt
  have hmul := Nat.mul_le_mul_left p (show 100001 ≤ periodRate clock p by omega)
  omega

/-- No device has a rate above 100000. -/
theorem Device.rate_le (d : Device) (sampleRate : ℕ) : d.rate sampleRate ≤ 100000 := by
  obtain ⟨hmin, -⟩ := sam_per_bounds (M1K_timer_clock d.m_fwver) sampleRate
  rw [Device.rate]
  generalize sam_per (M1K_timer_clock d.m_fwver) sampleRate = per at hmin
  obtain ⟨p, rfl⟩ := Int.eq_ofNat_of_zero_le (le_trans (by decide) hmin)
  have hp : 240 ≤ p := Int.ofNat_le.mp hmin
  have hclock : timerClock d.m_fwver ≤ 48000000 := by
    rw [timerClock]
    split <;> decide
  rw [M1K_timer_clock_eq, set_sample_rate_eq (timerClock d.m_fwver) (show 0 < p by omega)]
  have hle := periodRate_le hclock hp
  omega

namespace Session

variable {s t : Session}

/-- The loop of `configure` returns a rate of a device, or an error. -/
theorem configureFrom_snd_le {sampleRate : ℕ} {mem : ℕ → Transfers} {ds : List ℕ}
    {heap : ℕ → Device} {ret : ℤ} (hret : ret ≤ 100000) :
    (configureFrom sampleRate mem ds heap ret).2 ≤ 100000 := by
  induction ds generalizing heap ret with
  | nil => exact hret
  | cons d ds ih =>
      have hone : ((heap d).configure sampleRate (mem d).ins (mem d).outs).2 ≤ 100000 := by
        by_cases hmem : (mem d).ins.Grants 2 ∧ (mem d).outs.Grants 2
        · rw [(configure_of_granted sampleRate (heap d) hmem.1 hmem.2).1]
          exact (heap d).rate_le sampleRate
        · have hneg := (configure_of_not_granted sampleRate (heap d) hmem).1
          omega
      rw [configureFrom]
      split
      · exact hone
      · exact ih hone

theorem configure_m_sample_rate_le (sampleRate : ℕ) (mem : ℕ → Transfers)
    (h : s.m_sample_rate ≤ 100000) : (s.configure sampleRate mem).1.m_sample_rate ≤ 100000 := by
  rw [Session.configure]
  split
  · exact h
  · split
    · exact h
    · simp only
      split
      · exact configureFrom_snd_le (by decide)
      · exact h

theorem scan_m_sample_rate (bus : Except ℕ (List Found)) (s : Session) :
    (s.scan bus).1.m_sample_rate = s.m_sample_rate := by
  have hfound : ∀ (found : List Found) (s : Session),
      (found.foldl make_available s).m_sample_rate = s.m_sample_rate := by
    intro found
    induction found with
    | nil => exact fun s => rfl
    | cons f found ih =>
        intro s
        rw [List.foldl_cons, ih]
        cases f with
        | existing d => rfl
        | probed d fwver serial => rfl
  cases bus with
  | error errno => rfl
  | ok found => exact hfound found _

/-- The calls that keep the books keep the rate in bounds. -/
theorem m_sample_rate_le_of_step {a : Act} (hbooks : Books a = true)
    (h : s.m_sample_rate ≤ 100000) (hstep : machine.step s a = some t) :
    t.m_sample_rate ≤ 100000 := by
  cases a with
  | add device claim =>
      simp only [machine] at hstep
      split at hstep
      · obtain rfl := Option.some.inj hstep
        rcases add_cases device claim s with heq | ⟨-, -, -, d, ds, -, -, heq⟩
        · rw [heq]
          exact h
        · rw [heq]
          exact h
      · cases hstep
  | add_all bus claims =>
      simp only [machine] at hstep
      split at hstep
      · obtain rfl := Option.some.inj hstep
        rw [add_all]
        split
        · exact h
        · dsimp only
          split
          · rw [scan_m_sample_rate]
            exact h
          · rw [addFrom_field Session.m_sample_rate fun _ _ => rfl, scan_m_sample_rate]
            exact h
      · cases hstep
  | remove device detached release =>
      obtain rfl := Option.some.inj hstep
      rcases remove_cases device detached release s with heq | ⟨-, d, -, heq⟩
      · rw [heq]
        exact h
      · rw [heq]
        exact h
  | configure sampleRate mem =>
      obtain rfl := Option.some.inj hstep
      exact configure_m_sample_rate_le sampleRate mem h
  | scan bus =>
      simp only [machine] at hstep
      split at hstep
      · obtain rfl := Option.some.inj hstep
        rw [scan_m_sample_rate]
        exact h
      · cases hstep
  | start samples mem answers | run samples mem answers | end_ | completion => cases hbooks

end Session

namespace Live

variable {s t : Live}

theorem startFrom_m_sample_rate (env : ℕ → Launch) (samples : ℕ) (ds : List ℕ) (s : Live) :
    (startFrom env samples ds s).1.m_sample_rate = s.m_sample_rate := by
  induction ds generalizing s with
  | nil => rfl
  | cons d ds ih =>
      rw [startFrom]
      split
      · rfl
      · exact ih _

theorem start_m_sample_rate_le (samples : ℕ) (mem : ℕ → Transfers) (env : ℕ → Launch)
    (h : s.m_sample_rate ≤ 100000) : (s.start samples mem env).1.m_sample_rate ≤ 100000 := by
  rw [start, startFrom_m_sample_rate, prepare]
  split
  · exact Session.configure_m_sample_rate_le 0 mem h
  · exact h

theorem end_m_sample_rate (env : Ending) (s : Live) :
    (s.end_ env).1.m_sample_rate = s.m_sample_rate := by
  have hcompletions : ∀ (ds : List ℕ) (s : Live),
      (ds.foldl completion s).m_sample_rate = s.m_sample_rate := by
    intro ds
    induction ds with
    | nil => exact fun s => rfl
    | cons d ds ih =>
        intro s
        rw [List.foldl_cons, ih, completion_toSession]
        split
        · rfl
        · rfl
  obtain ⟨board, heq⟩ := offFrom_frame env.off (s.wait env).m_devices (s.wait env) 0
  rw [end_, heq]
  simp only [wait]
  split
  · exact hcompletions _ _
  · exact hcompletions _ _

/-- **The rate of a session stays in bounds.** -/
theorem m_sample_rate_le_of_step {a : Act} (h : s.m_sample_rate ≤ 100000)
    (hstep : machine.step s a = some t) : t.m_sample_rate ≤ 100000 := by
  cases a with
  | books call =>
      simp only [machine] at hstep
      split at hstep
      · rename_i hbooks
        obtain ⟨u, hu, rfl⟩ := Option.map_eq_some_iff.mp hstep
        exact Session.m_sample_rate_le_of_step hbooks h hu
      · cases hstep
  | start samples mem env =>
      obtain rfl := Option.some.inj hstep
      exact start_m_sample_rate_le samples mem env h
  | run samples mem env ending =>
      obtain rfl := Option.some.inj hstep
      have hstart := start_m_sample_rate_le samples mem env h
      rw [run]
      split
      · exact h
      · dsimp only
        split
        · exact hstart
        · rw [end_m_sample_rate]
          exact hstart
  | end_ ending =>
      obtain rfl := Option.some.inj hstep
      rw [end_m_sample_rate]
      exact h
  | completion d =>
      simp only [machine] at hstep
      split at hstep
      · obtain rfl := Option.some.inj hstep
        rw [completion_toSession]
        split
        · exact h
        · exact h
      · cases hstep
  | destroy device =>
      obtain rfl := Option.some.inj hstep
      simp only [Session.destroy]
      split
      · exact h
      · split
        · exact h
        · split
          · exact h
          · exact h
  | cancel answers =>
      obtain rfl := Option.some.inj hstep
      exact h
  | handle_error status answers =>
      obtain rfl := Option.some.inj hstep
      rw [handle_error]
      split
      · exact h
      · exact h
  | transfers d requested received sent =>
      simp only [machine] at hstep
      split at hstep
      · obtain rfl := Option.some.inj hstep
        exact h
      · cases hstep

end Live

/-- A session with its devices and the number of samples it counts on. -/
structure Timed extends Live where
  /-- `unsigned` -/
  m_samples : ℕ
  /-- record: the samples of the capture that was begun last, until it is ended; 0 for a
  continuous one -/
  begun : ℕ
  /-- record: the waits for captures of a number of samples -/
  waits : List Wait

namespace Timed

open Live (Act Ending)

/-- A session without devices; `m_samples` is whatever the memory held. -/
def init (fwver : ℕ → ℚ) (m_samples : ℕ) : Timed where
  toLive := .init fwver
  m_samples := m_samples
  begun := 0
  waits := []

/-- `Session::start`. -/
def start (samples : ℕ) (mem : ℕ → Transfers) (env : ℕ → Launch) (s : Timed) : Timed × ℤ :=
  let r := s.toLive.start samples mem env
  ({ s with toLive := r.1, begun := samples }, r.2)

/-- `Session::end`. -/
def end_ (env : Ending) (s : Timed) : Timed :=
  { s with
    toLive := (s.toLive.end_ env).1
    begun := 0
    waits :=
      if 0 < s.begun then
        s.waits ++ [⟨s.begun, s.m_sample_rate, waitTime s.m_samples s.m_sample_rate⟩]
      else s.waits }

/-- `Session::run`. -/
def run (samples : ℕ) (mem : ℕ → Transfers) (env : ℕ → Launch) (ending : Ending) (s : Timed) :
    Timed :=
  if 0 < samples ∧ s.m_continuous then s
  else
    let r := start samples mem env { s with m_samples := samples % 2 ^ 32 }
    if r.2 ≠ 0 then r.1 else r.1.end_ ending

/-- The session as a machine. -/
def machine : Machine Timed Act where
  step s
    | .start samples mem env => some (s.start samples mem env).1
    | .run samples mem env ending => some (s.run samples mem env ending)
    | .end_ ending => some (s.end_ ending)
    | a => (Live.machine.step s.toLive a).map fun t => { s with toLive := t }

variable {s t : Timed} {a : Act}

/-- `run` refuses, or starts the capture and, if that works, ends it. -/
theorem run_cases (samples : ℕ) (mem : ℕ → Transfers) (env : ℕ → Launch) (ending : Ending)
    (s : Timed) :
    ((0 < samples ∧ s.m_continuous = true) ∧ s.run samples mem env ending = s) ∨
      (¬(0 < samples ∧ s.m_continuous = true) ∧ (s.toLive.start samples mem env).2 ≠ 0 ∧
        s.run samples mem env ending =
          (start samples mem env { s with m_samples := samples % 2 ^ 32 }).1) ∨
      ¬(0 < samples ∧ s.m_continuous = true) ∧ (s.toLive.start samples mem env).2 = 0 ∧
        s.run samples mem env ending =
          (start samples mem env { s with m_samples := samples % 2 ^ 32 }).1.end_ ending := by
  rw [run]
  by_cases hrefused : 0 < samples ∧ s.m_continuous = true
  · exact .inl ⟨hrefused, if_pos hrefused⟩
  · rw [if_neg hrefused]
    by_cases hret : (s.toLive.start samples mem env).2 = 0
    · exact .inr (.inr ⟨hrefused, hret, if_neg (not_not.mpr hret)⟩)
    · exact .inr (.inl ⟨hrefused, hret, if_pos hret⟩)

/-- The calls about captures. -/
def Captures : Act → Bool
  | .start _ _ _ | .run _ _ _ _ | .end_ _ => true
  | .books _ | .destroy _ | .cancel _ | .completion _ | .handle_error _ _ | .transfers _ _ _ _ =>
      false

/-- Any other step leaves `m_samples` and the record. -/
theorem step_of_not_captures (ha : Captures a = false) :
    machine.step s a =
      (Live.machine.step s.toLive a).map fun u => { s with toLive := u } := by
  cases a with
  | start | run | end_ => cases ha
  | books | destroy | cancel | completion | handle_error | transfers => rfl

/-- **Forgetting the waits**, a step is one of the session with its devices. -/
theorem step_toLive (h : machine.step s a = some t) :
    Live.machine.step s.toLive a = some t.toLive := by
  cases hcaptures : Captures a with
  | false =>
      rw [step_of_not_captures hcaptures] at h
      obtain ⟨u, hu, rfl⟩ := Option.map_eq_some_iff.mp h
      exact hu
  | true =>
      cases a with
      | start samples mem env =>
          obtain rfl := Option.some.inj h
          rfl
      | end_ ending =>
          obtain rfl := Option.some.inj h
          rfl
      | run samples mem env ending =>
          obtain rfl := Option.some.inj h
          refine congrArg some ?_
          rw [Live.run]
          rcases s.run_cases samples mem env ending with ⟨hrefused, heq⟩ |
            ⟨hrefused, hret, heq⟩ | ⟨hrefused, hret, heq⟩
          · rw [if_pos hrefused, heq]
          · rw [if_neg hrefused, if_pos hret, heq]
            rfl
          · rw [if_neg hrefused, if_neg (not_not.mpr hret), heq]
            rfl
      | books | destroy | cancel | completion | handle_error | transfers => cases hcaptures

/-! ### Which waits are long enough -/

/-- The condition on a step: `run`, when it comes to wait in a session that has a rate, was
called for a number of samples that 32 bits hold; and `end` is not called for a capture of
more samples than `m_samples` stands for. -/
def Foreseen (s : Timed) : Act → Prop
  | .run samples mem env _ =>
      ¬(0 < samples ∧ s.m_continuous = true) → (s.toLive.start samples mem env).2 = 0 →
        0 < (s.toLive.start samples mem env).1.m_sample_rate → samples < 2 ^ 32
  | .end_ _ =>
      0 < s.m_sample_rate →
        s.begun ≤ s.m_sample_rate.toNat * (s.m_samples / s.m_sample_rate.toNat + 2)
  | _ => True

/-- All waits so far were long enough, and the rate is one that devices have. -/
structure Sound (s : Timed) : Prop where
  rate : s.m_sample_rate ≤ 100000
  waits : ∀ w ∈ s.waits, w.LongEnough

/-- Some wait was too short. -/
def Broken (s : Timed) : Prop := ∃ w ∈ s.waits, ¬w.LongEnough

/-- What a step adds to the record, if it adds anything: for `run` and `end` the wait for the
capture that they end. -/
theorem waits_of_step (h : machine.step s a = some t) :
    t.waits = s.waits ∨
      (∃ samples mem env ending, a = .run samples mem env ending ∧ 0 < samples ∧
        ¬(0 < samples ∧ s.m_continuous = true) ∧ (s.toLive.start samples mem env).2 = 0 ∧
        t.waits = s.waits ++
          [⟨samples, (s.toLive.start samples mem env).1.m_sample_rate,
            waitTime (samples % 2 ^ 32) (s.toLive.start samples mem env).1.m_sample_rate⟩]) ∨
      ∃ ending, a = .end_ ending ∧ 0 < s.begun ∧
        t.waits =
          s.waits ++ [⟨s.begun, s.m_sample_rate, waitTime s.m_samples s.m_sample_rate⟩] := by
  cases hcaptures : Captures a with
  | false =>
      rw [step_of_not_captures hcaptures] at h
      obtain ⟨u, -, rfl⟩ := Option.map_eq_some_iff.mp h
      exact .inl rfl
  | true =>
      cases a with
      | start samples mem env =>
          obtain rfl := Option.some.inj h
          exact .inl rfl
      | end_ ending =>
          obtain rfl := Option.some.inj h
          by_cases hbegun : 0 < s.begun
          · exact .inr (.inr ⟨ending, rfl, hbegun, if_pos hbegun⟩)
          · exact .inl (if_neg hbegun)
      | run samples mem env ending =>
          obtain rfl := Option.some.inj h
          rcases s.run_cases samples mem env ending with ⟨hrefused, heq⟩ |
            ⟨hrefused, hret, heq⟩ | ⟨hrefused, hret, heq⟩
          · exact .inl (by rw [heq])
          · exact .inl (by rw [heq]; rfl)
          · rw [heq]
            by_cases hsamples : 0 < samples
            · exact .inr (.inl ⟨samples, mem, env, ending, rfl, hsamples, hrefused, hret,
                if_pos hsamples⟩)
            · exact .inl (if_neg hsamples)
      | books | destroy | cancel | completion | handle_error | transfers => cases hcaptures

/-- A step that meets the condition waits long enough. -/
theorem Sound.step (hs : Sound s) (hok : Foreseen s a) (h : machine.step s a = some t) :
    Sound t := by
  refine ⟨Live.m_sample_rate_le_of_step hs.rate (step_toLive h), ?_⟩
  rcases waits_of_step h with heq | ⟨samples, mem, env, ending, rfl, hpos, hrefused, hret, heq⟩ |
    ⟨ending, rfl, hpos, heq⟩
  · rw [heq]
    exact hs.waits
  · rw [heq]
    intro w hw
    rcases List.mem_append.mp hw with hw | hw
    · exact hs.waits w hw
    · obtain rfl := List.mem_singleton.mp hw
      rw [longEnough_iff]
      intro hrate
      have hle := Live.start_m_sample_rate_le samples mem env hs.rate
      rw [le_wait_iff (by omega) (by omega)]
      exact hok hrefused hret hrate
  · rw [heq]
    intro w hw
    rcases List.mem_append.mp hw with hw | hw
    · exact hs.waits w hw
    · obtain rfl := List.mem_singleton.mp hw
      exact longEnough_iff.mpr hok

/-- One that does not waits too short. -/
theorem Sound.breaks (hs : Sound s) (hok : ¬Foreseen s a) (h : machine.step s a = some t) :
    Broken t := by
  cases a with
  | run samples mem env ending =>
      obtain rfl := Option.some.inj h
      simp only [Foreseen, Classical.not_imp] at hok
      obtain ⟨hrefused, hret, hrate, hbig⟩ := hok
      have hpos : 0 < samples := by omega
      refine ⟨⟨samples, (s.toLive.start samples mem env).1.m_sample_rate,
        waitTime (samples % 2 ^ 32) (s.toLive.start samples mem env).1.m_sample_rate⟩, ?_,
        fun hlong => hbig ?_⟩
      · rcases s.run_cases samples mem env ending with ⟨hrefused', -⟩ | ⟨-, hret', -⟩ |
          ⟨-, -, heq⟩
        · exact absurd hrefused' hrefused
        · exact absurd hret hret'
        · have hwaits : (s.run samples mem env ending).waits = s.waits ++ [⟨samples,
              (s.toLive.start samples mem env).1.m_sample_rate,
              waitTime (samples % 2 ^ 32) (s.toLive.start samples mem env).1.m_sample_rate⟩] := by
            rw [heq]
            exact if_pos hpos
          rw [hwaits]
          exact List.mem_append_right _ List.mem_cons_self
      · have hle := Live.start_m_sample_rate_le samples mem env hs.rate
        exact (le_wait_iff (by omega) (by omega) samples).mp (longEnough_iff.mp hlong hrate)
  | end_ ending =>
      obtain rfl := Option.some.inj h
      simp only [Foreseen, Classical.not_imp] at hok
      have hpos : 0 < s.begun := by omega
      refine ⟨⟨s.begun, s.m_sample_rate, waitTime s.m_samples s.m_sample_rate⟩, ?_, fun hlong =>
        hok.2 (longEnough_iff.mp hlong hok.1)⟩
      rw [end_]
      simp only [if_pos hpos]
      exact List.mem_append_right _ List.mem_cons_self
  | start | books | destroy | cancel | completion | handle_error | transfers =>
      exact absurd trivial hok

/-- What is recorded stays recorded. -/
theorem Broken.step (hs : Broken s) (h : machine.step s a = some t) : Broken t := by
  obtain ⟨w, hw, hshort⟩ := hs
  refine ⟨w, ?_, hshort⟩
  rcases waits_of_step h with heq | ⟨_, _, _, _, -, -, -, -, heq⟩ | ⟨_, -, -, heq⟩
  · rw [heq]
    exact hw
  · rw [heq]
    exact List.mem_append_left _ hw
  · rw [heq]
    exact List.mem_append_left _ hw

/-- **How long `end` waits.** Whatever `m_samples` is at first, every wait of a run of the
session for a capture of a number of samples is at least as long as the samples take at the
rate of the session exactly when every step meets the condition. -/
theorem waits_iff {fwver : ℕ → ℚ} {m_samples : ℕ} {as : List Act}
    (hrun : machine.run (init fwver m_samples) as = some t) :
    (∀ w ∈ t.waits, w.LongEnough) ↔ machine.Meets Foreseen (init fwver m_samples) as := by
  have hinit : Sound (init fwver m_samples) :=
    ⟨show (0 : ℤ) ≤ 100000 by decide, fun w hw => nomatch hw⟩
  rcases Machine.sound_or_broken (fun _ _ _ hs hok hstep => hs.step hok hstep)
    (fun _ _ _ hs hok hstep => hs.breaks hok hstep) (fun _ _ _ hs hstep => hs.step hstep) hinit
    hrun with ⟨hmeets, hsound⟩ | ⟨hmeets, w, hw, hshort⟩
  · exact iff_of_true hsound.waits hmeets
  · exact iff_of_false (fun hall => hshort (hall w hw)) hmeets

/-- What a capture ends with where all is well. -/
def ending : Ending := ⟨fun _ => 0, [1], fun _ => ⟨fun _ => 0, 0, false⟩⟩

/-- A session of one device that samples at 100000 samples per second. -/
def setUp : List Act :=
  [.books (.add_all (.ok [.probed 1 "2.17" "a"]) fun _ => 0),
    .books (.configure 100000 Live.plenty)]

/-- The same of a run of 500000 samples. -/
theorem waits_iff_run : ∃ t, machine.run (init (fun _ => 217 / 100) 0)
      (setUp ++ [.run 500000 Live.plenty Live.working ending]) = some t ∧
    ((∀ w ∈ t.waits, w.LongEnough) ↔ machine.Meets Foreseen (init (fun _ => 217 / 100) 0)
      (setUp ++ [.run 500000 Live.plenty Live.working ending])) := by
  have hrun : (machine.run (init (fun _ => 217 / 100) 0)
      (setUp ++ [.run 500000 Live.plenty Live.working ending])).isSome := by decide +kernel
  obtain ⟨t, ht⟩ := Option.isSome_iff_exists.mp hrun
  exact ⟨t, ht, waits_iff ht⟩

/-- **Waits that are too short.** After a run of 1000 samples `end` waits two seconds for a
capture of ten seconds that `start` begins, and `run` waits two seconds for one of
`2 ^ 32` samples. -/
theorem capture_cut_short :
    (∃ t, machine.run (init (fun _ => 217 / 100) 0)
        (setUp ++ [.run 1000 Live.plenty Live.working ending,
          .start 1000000 Live.plenty Live.working, .end_ ending]) = some t ∧
      t.waits = [⟨1000, 100000, 2⟩, ⟨1000000, 100000, 2⟩] ∧ ¬∀ w ∈ t.waits, w.LongEnough) ∧
    ∃ t, machine.run (init (fun _ => 217 / 100) 0)
        (setUp ++ [.run (2 ^ 32) Live.plenty Live.working ending]) = some t ∧
      t.waits = [⟨2 ^ 32, 100000, 2⟩] ∧ ¬∀ w ∈ t.waits, w.LongEnough := by
  have hshort : ∀ n : ℕ, 200000 < n → ¬Wait.LongEnough ⟨n, 100000, 2⟩ := by
    intro n hn hlong
    have hle : n ≤ 200000 := (@longEnough_iff n 0 100000).mp hlong (by decide)
    omega
  have hfirst : (machine.run (init (fun _ => 217 / 100) 0)
      (setUp ++ [.run 1000 Live.plenty Live.working ending,
        .start 1000000 Live.plenty Live.working, .end_ ending])).map (·.waits) =
      some [⟨1000, 100000, 2⟩, ⟨1000000, 100000, 2⟩] := by decide +kernel
  have hsecond : (machine.run (init (fun _ => 217 / 100) 0)
      (setUp ++ [.run (2 ^ 32) Live.plenty Live.working ending])).map (·.waits) =
      some [⟨2 ^ 32, 100000, 2⟩] := by decide +kernel
  obtain ⟨t, ht, hwaits⟩ := Option.map_eq_some_iff.mp hfirst
  obtain ⟨u, hu, hwaits'⟩ := Option.map_eq_some_iff.mp hsecond
  refine ⟨⟨t, ht, hwaits, fun hall => ?_⟩, u, hu, hwaits', fun hall => ?_⟩
  · refine hshort 1000000 (by decide) (hall _ ?_)
    rw [hwaits]
    exact List.mem_cons_of_mem _ List.mem_cons_self
  · refine hshort (2 ^ 32) (by decide) (hall _ ?_)
    rw [hwaits']
    exact List.mem_cons_self

end Timed

end Libsmu
