import Libsmu.Lib.Counter
import Libsmu.Lib.Machine

/-!
# The Completion Count of a Session

`Session::start` runs the devices one after the other and counts each in
`m_active_devices` once its `run` has returned 0; the device streams from then on, and
calls `Session::completion` on the USB thread when it has finished. `completion` takes the
device off the count, and if that leaves zero calls `m_completion_callback` and notifies
`end`.

The loop of `start` and the two halves of `completion` (the decrement, and after the lock
the test) are steps of their own. There is one USB thread, so calls of `completion` do not
overlap. `on`, `sync` and `run` of a device are one step: they touch the count no more
than a failure of any of them does, which ends the loop.

## Main results

* `once_of_orderly`: when every `completion` leaves a device on the count unless `start`
  has no further one to run or to count, the count never wraps, and every `start` is
  followed by exactly one notification, after its last device has finished.
* `disorderly_completion`: from any other `completion` on, the count wraps or the
  notification may come too early.
* `notified_twice`: both happen.
-/

namespace Libsmu.SessionCompletion

variable {δ : Type*}

/-- Where `Session::start` stands. -/
inductive StartPc (δ : Type*)
  /-- not called, or returned -/
  | returned
  /-- at the head of the loop, with these devices still to be run -/
  | turn (todo : List δ)
  /-- a device is running and `m_active_devices++` comes next -/
  | counting (todo : List δ)
  deriving DecidableEq

/-- The loop has no further device to run or to count. -/
def StartPc.finished : StartPc δ → Prop
  | .returned => True
  | .turn todo => todo = []
  | .counting _ => False

instance (pc : StartPc δ) : Decidable pc.finished :=
  match pc with
  | .returned => isTrue trivial
  | .turn _ => inferInstanceAs (Decidable (_ = []))
  | .counting _ => isFalse id

/-- How many devices are running and not counted. -/
def StartPc.uncounted : StartPc δ → ℕ
  | .counting _ => 1
  | _ => 0

/-- How many devices are still to be run. -/
def StartPc.remaining : StartPc δ → ℕ
  | .returned => 0
  | .turn todo => todo.length
  | .counting todo => todo.length

/-- The session, from one `start` to the next. -/
structure State (δ : Type*) where
  /-- `unsigned` -/
  m_active_devices : ℕ
  start : StartPc δ
  /-- devices that run and have not called `completion` yet -/
  streaming : List δ
  /-- whether the USB thread is between the two halves of `completion` -/
  testing : Bool
  /-- record: whether `start` was called at all -/
  called : Bool
  /-- record: how many devices this `start` has run -/
  ran : ℕ
  /-- record: how often `end` was notified and the callback called since this `start` -/
  notified : ℕ
  /-- record: whether that happened before the last device had finished -/
  early : Bool
  /-- record: whether the count went below zero -/
  wrapped : Bool
  deriving DecidableEq

/-- A session before its first `start`. -/
def State.init (δ : Type*) : State δ where
  m_active_devices := 0
  start := .returned
  streaming := []
  testing := false
  called := false
  ran := 0
  notified := 0
  early := false
  wrapped := false

/-- One step of `start` or of the USB thread. -/
inductive Act (δ : Type*)
  /-- `start` is called with these `m_devices` -/
  | start (m_devices : List δ)
  /-- `on`, `sync` and `run` of the next device, which all return 0 if `ok` -/
  | run (ok : Bool)
  /-- `m_active_devices++` -/
  | count
  /-- `start` returns -/
  | returns
  /-- device `d` calls `completion`, which decrements the count -/
  | completion (d : δ)
  /-- the test of the count in `completion` -/
  | test
  deriving DecidableEq

/-- The devices have finished, and no thread is inside `start` or `completion`. -/
def State.Over (s : State δ) : Prop :=
  s.called = true ∧ s.start = .returned ∧ s.streaming = [] ∧ s.testing = false

/-- The session as a machine. A `start` follows the end of the one before. -/
def machine (δ : Type*) [DecidableEq δ] : Machine (State δ) (Act δ) where
  step s
    | .start m_devices =>
        if s.start = .returned ∧ s.streaming = [] ∧ s.testing = false then
          some { s with
            start := .turn m_devices
            called := true
            ran := 0
            notified := 0 }
        else none
    | .run ok =>
        match s.start with
        | .turn (d :: todo) =>
            if ok then
              some { s with
                start := .counting todo
                streaming := d :: s.streaming
                ran := s.ran + 1 }
            else some { s with start := .returned }
        | _ => none
    | .count =>
        match s.start with
        | .counting todo =>
            some { s with
              start := .turn todo
              m_active_devices := Counter.add 32 s.m_active_devices 1 }
        | _ => none
    | .returns =>
        match s.start with
        | .turn [] => some { s with start := .returned }
        | _ => none
    | .completion d =>
        if d ∈ s.streaming ∧ s.testing = false then
          some { s with
            streaming := s.streaming.erase d
            testing := true
            m_active_devices := Counter.pred 32 s.m_active_devices
            wrapped := s.wrapped || decide (s.m_active_devices = 0) }
        else none
    | .test =>
        if s.testing then
          if s.m_active_devices = 0 then
            some { s with
              testing := false
              notified := s.notified + 1
              early := s.early || !decide (s.streaming = [] ∧ s.start.finished) }
          else some { s with testing := false }
        else none

/-- **Once.** The count has not wrapped, the notification has not come early and not come
twice, and it has come if the session is over. -/
structure Once (s : State δ) : Prop where
  wrapped : s.wrapped = false
  early : s.early = false
  le_one : s.notified ≤ 1
  once : s.Over → s.notified = 1

/-- An orderly step: `start` is called for at least one device and gets at least one to
run, and a `completion` leaves a device on the count unless the loop is over. -/
def Orderly (s : State δ) : Act δ → Prop
  | .start m_devices => m_devices ≠ [] ∧ m_devices.length < 2 ^ 32
  | .run ok => ok = true ∨ s.ran ≠ 0
  | .completion _ =>
      2 ≤ s.m_active_devices ∨ 1 ≤ s.m_active_devices ∧ s.start.finished
  | _ => True

/-- The invariant of orderly schedules. -/
structure Inv (s : State δ) : Prop where
  wrapped : s.wrapped = false
  early : s.early = false
  /-- the count and the device about to be counted are the streaming ones -/
  active : s.m_active_devices + s.start.uncounted = s.streaming.length
  /-- the devices still to be run fit the count -/
  fits : s.streaming.length + s.start.remaining < 2 ^ 32
  /-- before the first `start` nothing runs -/
  idle : s.called = false → s.start = .returned ∧ s.ran = 0
  /-- before the first device of a `start` there is still one to run -/
  fresh : s.ran = 0 → s.streaming = [] ∧ s.testing = false ∧ s.notified = 0 ∧
    (s.called = true → ∃ d todo, s.start = .turn (d :: todo))
  /-- after it some device streams until the loop is over -/
  alive : s.ran ≠ 0 → ¬s.start.finished → s.streaming ≠ []
  /-- a count of zero under test is the end -/
  last : s.testing = true → s.notified = 0 ∧ (s.m_active_devices = 0 → s.start.finished)
  /-- outside `completion` the notification has come exactly if all is over -/
  rest : s.testing = false → s.ran ≠ 0 →
    s.notified = if s.start.finished ∧ s.streaming = [] then 1 else 0

variable {s t : State δ}

theorem Inv.init : Inv (State.init δ) where
  wrapped := rfl
  early := rfl
  active := rfl
  fits := Nat.two_pow_pos 32
  idle := fun _ => ⟨rfl, rfl⟩
  fresh := fun _ => ⟨rfl, rfl, rfl, fun h => (nomatch h)⟩
  alive := fun h => absurd rfl h
  last := fun h => (nomatch h)
  rest := fun _ h => absurd rfl h

/-- What the invariant says of a state. -/
theorem Inv.once (h : Inv s) : Once s := by
  have hzero : s.ran = 0 → s.notified = 0 := fun hran => (h.fresh hran).2.2.1
  refine ⟨h.wrapped, h.early, ?_, ?_⟩
  · cases htest : s.testing with
    | true => rw [(h.last htest).1]; exact Nat.zero_le 1
    | false =>
        by_cases hran : s.ran = 0
        · rw [hzero hran]
          exact Nat.zero_le 1
        · rw [h.rest htest hran]
          split <;> decide
  · rintro ⟨hcalled, hret, hstream, htest⟩
    by_cases hran : s.ran = 0
    · obtain ⟨d, todo, hturn⟩ := (h.fresh hran).2.2.2 hcalled
      rw [hret] at hturn
      cases hturn
    · rw [h.rest htest hran, if_pos ⟨by rw [hret]; trivial, hstream⟩]

/-- Inside the loop `start` was called. -/
theorem Inv.called_eq_true (h : Inv s) (hinside : s.start ≠ .returned) : s.called = true := by
  by_contra hc
  exact hinside (h.idle (by simpa using hc)).1

/-- A `start` that is inside the loop with no device about to be run first has run one. -/
theorem Inv.ran_ne_zero (h : Inv s) (hinside : s.start ≠ .returned)
    (hlater : ∀ d todo, s.start ≠ .turn (d :: todo)) : s.ran ≠ 0 := by
  intro hran
  obtain ⟨d, todo, hturn⟩ := (h.fresh hran).2.2.2 (h.called_eq_true hinside)
  exact hlater d todo hturn

/-- A new `start` for some devices. -/
theorem Inv.startStep (h : Inv s) {m_devices : List δ} (hne : m_devices ≠ [])
    (hlt : m_devices.length < 2 ^ 32) (hret : s.start = .returned) (hstream : s.streaming = [])
    (htest : s.testing = false) :
    Inv { s with start := .turn m_devices, called := true, ran := 0, notified := 0 } := by
  obtain ⟨d, todo, rfl⟩ := List.exists_cons_of_ne_nil hne
  have hactive := h.active
  rw [hret] at hactive
  refine ⟨h.wrapped, h.early, hactive, ?_, fun hc => (nomatch hc),
    fun _ => ⟨hstream, htest, rfl, fun _ => ⟨d, todo, rfl⟩⟩, fun hr => absurd rfl hr, ?_,
    fun _ hr => absurd rfl hr⟩
  · simp only [hstream, StartPc.remaining, List.length_nil, Nat.zero_add]
    exact hlt
  · intro htrue
    rw [htest] at htrue
    cases htrue

/-- The next device is run. -/
theorem Inv.runStep (h : Inv s) {d : δ} {todo : List δ} (hturn : s.start = .turn (d :: todo)) :
    Inv { s with
      start := .counting todo
      streaming := d :: s.streaming
      ran := s.ran + 1 } := by
  have hcalled := h.called_eq_true (by rw [hturn]; exact fun hc => (nomatch hc))
  have hover : ¬s.start.finished := by simp [hturn, StartPc.finished]
  have hactive := h.active
  have hfits := h.fits
  rw [hturn] at hactive hfits
  simp only [StartPc.uncounted, StartPc.remaining, List.length_cons] at hactive hfits
  refine ⟨h.wrapped, h.early, ?_, ?_, ?_, fun hr => absurd hr (Nat.succ_ne_zero _),
    fun _ _ => List.cons_ne_nil _ _, ?_, ?_⟩
  · simp only [StartPc.uncounted, List.length_cons]
    omega
  · simp only [StartPc.remaining, List.length_cons]
    omega
  · intro hc
    rw [hcalled] at hc
    cases hc
  · intro htest
    obtain ⟨hn, hz⟩ := h.last htest
    exact ⟨hn, fun hc => absurd (hz hc) hover⟩
  · intro htest _
    rw [if_neg fun hc => hc.1]
    by_cases hran : s.ran = 0
    · exact (h.fresh hran).2.2.1
    · rw [h.rest htest hran, if_neg fun hc => hover hc.1]

/-- A device that is not the first one fails, and `start` returns. -/
theorem Inv.failStep (h : Inv s) {d : δ} {todo : List δ} (hturn : s.start = .turn (d :: todo))
    (hran : s.ran ≠ 0) : Inv { s with start := .returned } := by
  have hcalled := h.called_eq_true (by rw [hturn]; exact fun hc => (nomatch hc))
  have hover : ¬s.start.finished := by simp [hturn, StartPc.finished]
  have hactive := h.active
  have hfits := h.fits
  rw [hturn] at hactive hfits
  refine ⟨h.wrapped, h.early, hactive, ?_, ?_, fun hr => absurd hr hran,
    fun _ hn => absurd trivial hn, fun htest => ⟨(h.last htest).1, fun _ => trivial⟩, ?_⟩
  · simp only [StartPc.remaining]
    omega
  · intro hc
    rw [hcalled] at hc
    cases hc
  · intro htest _
    rw [h.rest htest hran, if_neg fun hc => hover hc.1,
      if_neg fun hc => h.alive hran hover hc.2]

/-- The device that was run is counted. -/
theorem Inv.countStep (h : Inv s) {todo : List δ} (hcount : s.start = .counting todo) :
    Inv { s with
      start := .turn todo
      m_active_devices := Counter.add 32 s.m_active_devices 1 } := by
  have hinside : s.start ≠ .returned := by rw [hcount]; exact fun hc => (nomatch hc)
  have hcalled := h.called_eq_true hinside
  have hran := h.ran_ne_zero hinside (by rw [hcount]; exact fun _ _ hc => (nomatch hc))
  have hover : ¬s.start.finished := by rw [hcount]; exact id
  have hactive := h.active
  have hfits := h.fits
  rw [hcount] at hactive hfits
  simp only [StartPc.uncounted, StartPc.remaining] at hactive hfits
  have hadd := Counter.add_of_lt (w := 32) (show s.m_active_devices + 1 < 2 ^ 32 by omega)
  have halive := h.alive hran hover
  refine ⟨h.wrapped, h.early, ?_, hfits, ?_, fun hr => absurd hr hran, fun _ _ => halive, ?_, ?_⟩
  · simp only [StartPc.uncounted, hadd]
    omega
  · intro hc
    rw [hcalled] at hc
    cases hc
  · intro htest
    refine ⟨(h.last htest).1, fun hz => ?_⟩
    simp only [hadd] at hz
    omega
  · intro htest _
    rw [h.rest htest hran, if_neg fun hc => hover hc.1, if_neg fun hc => halive hc.2]

/-- `start` returns after its last device. -/
theorem Inv.returnsStep (h : Inv s) (hturn : s.start = .turn []) :
    Inv { s with start := .returned } := by
  have hinside : s.start ≠ .returned := by rw [hturn]; exact fun hc => (nomatch hc)
  have hcalled := h.called_eq_true hinside
  have hran := h.ran_ne_zero hinside (by rw [hturn]; exact fun _ _ hc => (nomatch hc))
  have hover : s.start.finished := by rw [hturn]; rfl
  have hactive := h.active
  have hfits := h.fits
  rw [hturn] at hactive hfits
  refine ⟨h.wrapped, h.early, hactive, hfits, ?_, fun hr => absurd hr hran,
    fun _ hn => absurd trivial hn, fun htest => ⟨(h.last htest).1, fun _ => trivial⟩, ?_⟩
  · intro hc
    rw [hcalled] at hc
    cases hc
  · intro htest _
    rw [h.rest htest hran]
    by_cases hnil : s.streaming = []
    · rw [if_pos ⟨hover, hnil⟩, if_pos ⟨trivial, hnil⟩]
    · rw [if_neg fun hc => hnil hc.2, if_neg fun hc => hnil hc.2]

/-- A device calls `completion`, which leaves another one on the count unless the loop is
over. -/
theorem Inv.completionStep [DecidableEq δ] (h : Inv s) {d : δ} (hmem : d ∈ s.streaming)
    (htest : s.testing = false)
    (hok : 2 ≤ s.m_active_devices ∨ 1 ≤ s.m_active_devices ∧ s.start.finished) :
    Inv { s with
      streaming := s.streaming.erase d
      testing := true
      m_active_devices := Counter.pred 32 s.m_active_devices
      wrapped := s.wrapped || decide (s.m_active_devices = 0) } := by
  have hactive := h.active
  have hfits := h.fits
  have hpos : 0 < s.m_active_devices := by
    rcases hok with hok | hok
    · omega
    · exact hok.1
  have hpred := Counter.pred_of_pos (w := 32) hpos (by omega)
  have hlen := List.length_erase_of_mem hmem
  have hlenpos := List.length_pos_of_mem hmem
  have hran : s.ran ≠ 0 := by
    intro hr
    rw [(h.fresh hr).1] at hmem
    cases hmem
  refine ⟨?_, h.early, ?_, ?_, h.idle, fun hr => absurd hr hran, ?_, ?_,
    fun htrue => (nomatch htrue)⟩
  · simp only [h.wrapped, Bool.false_or, decide_eq_false_iff_not]
    omega
  · simp only [hpred, hlen]
    omega
  · simp only [hlen]
    omega
  · intro _ hnot hnil
    have hzero := congrArg List.length hnil
    simp only [hlen, List.length_nil] at hzero
    have htwo : 2 ≤ s.m_active_devices := hok.resolve_right fun hc => hnot hc.2
    omega
  · intro _
    refine ⟨?_, fun hz => ?_⟩
    · rw [h.rest htest hran, if_neg fun hc => ?_]
      rw [hc.2] at hmem
      cases hmem
    · simp only [hpred] at hz
      rcases hok with hok | hok
      · omega
      · exact hok.2

/-- The test of the count finds zero: all devices have finished. -/
theorem Inv.notifyStep (h : Inv s) (htest : s.testing = true) (hzero : s.m_active_devices = 0) :
    Inv { s with
      testing := false
      notified := s.notified + 1
      early := s.early || !decide (s.streaming = [] ∧ s.start.finished) } := by
  obtain ⟨hn, hlast⟩ := h.last htest
  have hover := hlast hzero
  have hran : s.ran ≠ 0 := by
    intro hr
    rw [(h.fresh hr).2.1] at htest
    cases htest
  have hunc : s.start.uncounted = 0 := by
    cases hpc : s.start with
    | counting todo =>
        rw [hpc] at hover
        exact hover.elim
    | returned => rfl
    | turn todo => rfl
  have hactive := h.active
  have hnil : s.streaming = [] := List.eq_nil_of_length_eq_zero (by omega)
  refine ⟨h.wrapped, ?_, hactive, h.fits, h.idle, fun hr => absurd hr hran, h.alive,
    fun htrue => (nomatch htrue), ?_⟩
  · simp [h.early, hnil, hover]
  · intro _ _
    rw [if_pos ⟨hover, hnil⟩, hn]

/-- It finds a device on the count. -/
theorem Inv.testStep (h : Inv s) (htest : s.testing = true) (hzero : s.m_active_devices ≠ 0) :
    Inv { s with testing := false } := by
  obtain ⟨hn, -⟩ := h.last htest
  have hran : s.ran ≠ 0 := by
    intro hr
    rw [(h.fresh hr).2.1] at htest
    cases htest
  refine ⟨h.wrapped, h.early, h.active, h.fits, h.idle, fun hr => absurd hr hran, h.alive,
    fun htrue => (nomatch htrue), fun _ _ => ?_⟩
  rw [if_neg fun hc => ?_]
  · exact hn
  · have hactive := h.active
    rw [hc.2, List.length_nil] at hactive
    omega

/-- **The step lemma**: orderly steps keep the invariant. -/
theorem Inv.step [DecidableEq δ] {a : Act δ} (h : Inv s) (hok : Orderly s a)
    (hstep : (machine δ).step s a = some t) : Inv t := by
  cases a with
  | start m_devices =>
      simp only [machine] at hstep
      split at hstep
      · rename_i hquiet
        obtain rfl := Option.some.inj hstep
        exact h.startStep hok.1 hok.2 hquiet.1 hquiet.2.1 hquiet.2.2
      · cases hstep
  | run ok =>
      simp only [machine] at hstep
      split at hstep
      · rename_i d todo hturn
        split at hstep
        · obtain rfl := Option.some.inj hstep
          exact h.runStep hturn
        · rename_i hfail
          obtain rfl := Option.some.inj hstep
          exact h.failStep hturn (hok.resolve_left hfail)
      · cases hstep
  | count =>
      simp only [machine] at hstep
      split at hstep
      · rename_i todo hcount
        obtain rfl := Option.some.inj hstep
        exact h.countStep hcount
      · cases hstep
  | returns =>
      simp only [machine] at hstep
      split at hstep
      · rename_i hturn
        obtain rfl := Option.some.inj hstep
        exact h.returnsStep hturn
      · cases hstep
  | completion d =>
      simp only [machine] at hstep
      split at hstep
      · rename_i hd
        obtain rfl := Option.some.inj hstep
        exact h.completionStep hd.1 hd.2 hok
      · cases hstep
  | test =>
      simp only [machine] at hstep
      split at hstep
      · rename_i htest
        split at hstep
        · rename_i hzero
          obtain rfl := Option.some.inj hstep
          exact h.notifyStep htest hzero
        · rename_i hzero
          obtain rfl := Option.some.inj hstep
          exact h.testStep htest hzero
      · cases hstep

/-- **Once per start.** In every state an orderly schedule reaches, the count has not
wrapped, no notification has come before the last device had finished, at most one has come
since the last `start`, and if the session is over exactly one has. -/
theorem once_of_orderly [DecidableEq δ] {as : List (Act δ)}
    (hmeets : (machine δ).Meets Orderly (.init δ) as)
    (hrun : (machine δ).run (.init δ) as = some s) : Once s :=
  (Machine.invariant_of_meets (fun _ _ _ hu ha ht => hu.step ha ht) Inv.init hmeets hrun).once

/-- A session of two devices, the first of which finishes while `start` still has to
return, but has counted both. -/
theorem once_of_orderly_two : ∃ s,
    (machine ℕ).run (.init ℕ)
        [.start [1, 2], .run true, .count, .run true, .count, .completion 1, .test, .returns] =
          some s ∧ Once s := by
  suffices horderly : (machine ℕ).Meets Orderly (.init ℕ)
      [.start [1, 2], .run true, .count, .run true, .count, .completion 1, .test, .returns] from
    ⟨_, rfl, once_of_orderly horderly rfl⟩
  refine ⟨⟨by decide, by decide⟩, fun _ h₁ => ⟨.inl rfl, fun _ h₂ => ⟨trivial, fun _ h₃ =>
    ⟨.inl rfl, fun _ h₄ => ⟨trivial, fun _ h₅ => ⟨.inl ?_, fun _ _ => ⟨trivial, fun _ _ =>
    ⟨trivial, fun _ _ => trivial⟩⟩⟩⟩⟩⟩⟩⟩
  obtain rfl := Option.some.inj h₁
  obtain rfl := Option.some.inj h₂
  obtain rfl := Option.some.inj h₃
  obtain rfl := Option.some.inj h₄
  obtain rfl := Option.some.inj h₅
  decide

/-! ### Disorderly completions -/

/-- **Every disorderly `completion` is one too many.** A `completion` that is not orderly
takes the count below zero, or is followed by a
notification before the last device has finished if its test comes next. -/
theorem disorderly_completion [DecidableEq δ] {d : δ}
    (hbad : ¬Orderly s (.completion d)) (hstep : (machine δ).step s (.completion d) = some t) :
    t.wrapped = true ∨ ∃ u, (machine δ).step t .test = some u ∧ u.early = true := by
  simp only [Orderly, not_or, not_and] at hbad
  obtain ⟨hlt, hover⟩ := hbad
  simp only [machine] at hstep
  split at hstep
  · rename_i hd
    obtain rfl := Option.some.inj hstep
    by_cases hzero : s.m_active_devices = 0
    · exact .inl (by simp [hzero])
    · have hone : s.m_active_devices = 1 := by omega
      have hnot := hover (by omega)
      refine .inr ⟨{ s with
        streaming := s.streaming.erase d
        testing := false
        m_active_devices := Counter.pred 32 s.m_active_devices
        wrapped := s.wrapped || decide (s.m_active_devices = 0)
        notified := s.notified + 1
        early := true }, ?_, rfl⟩
      have hpred : Counter.pred 32 s.m_active_devices = 0 := by
        rw [hone]
        rfl
      simp [machine, hpred, hnot]
  · cases hstep

/-- **Two devices, two notifications; one device, a count below zero.** The first of two
devices finishes before `start` has run the second; or the only device finishes before
`start` has counted it. -/
theorem notified_twice :
    (∃ s, (machine ℕ).run (.init ℕ)
        [.start [1, 2], .run true, .count, .completion 1, .test, .run true, .count, .returns,
          .completion 2, .test] = some s ∧
      s.notified = 2 ∧ s.early = true ∧ ¬Once s) ∧
    ∃ s, (machine ℕ).run (.init ℕ) [.start [1], .run true, .completion 1] = some s ∧
      s.m_active_devices = 2 ^ 32 - 1 ∧ ¬Once s :=
  ⟨⟨_, rfl, rfl, rfl, fun h => absurd h.le_one (by decide)⟩,
    ⟨_, rfl, rfl, fun h => absurd h.wrapped (by decide)⟩⟩

end Libsmu.SessionCompletion
