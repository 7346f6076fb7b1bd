import Libsmu.Streaming

/-!
# Exactly One Completion per Started Device

`Session::start` counts a device in `m_active_devices` when its `run` returned `0`, and
only `Session::completion` gives the count back. It is reached from a completion
callback alone, when both `num_active` counters are zero. This module shows what that
amounts to over every schedule of the streaming machine.

## Main results

* `Inv.step`: `num_active` is the number of transfers in flight in each direction, and
  the completion count follows from these numbers and the positions of both threads.
* `completion_iff_kickoffAccepted`: once the kickoff has finished and nothing is in
  flight, `completion` has been called exactly once if libusb accepted one of the
  submissions of the kickoff thread, and not at all otherwise; it is never called
  earlier.
* `no_completion`: a kickoff whose submissions are all refused leaves the device
  counted for ever.
-/

namespace Libsmu.Streaming

variable {α : Type*} {c : Config}

/-! ### What a submission changes -/

/-- A submission of an IN transfer changes the IN direction, the requested count and
the cancellation, and nothing else. -/
theorem submit_in_transfer_frame (s : State α) (t : ℕ) (accepted : Bool) :
    (submit_in_transfer c s t accepted).1 = { s with
      ins := (submit_in_transfer c s t accepted).1.ins
      m_requested_sampleno := (submit_in_transfer c s t accepted).1.m_requested_sampleno
      cancelled := (submit_in_transfer c s t accepted).1.cancelled } := by
  rw [submit_in_transfer]
  split
  · cases accepted <;> rfl
  · rfl

/-- Submitting an IN transfer leaves the OUT transfers alone. -/
@[simp] theorem submit_in_transfer_outs (s : State α) (t : ℕ) (accepted : Bool) :
    (submit_in_transfer c s t accepted).1.outs = s.outs := by
  rw [submit_in_transfer_frame]

/-- Submitting an IN transfer leaves the callback that is running. -/
@[simp] theorem submit_in_transfer_callback (s : State α) (t : ℕ) (accepted : Bool) :
    (submit_in_transfer c s t accepted).1.callback = s.callback := by
  rw [submit_in_transfer_frame]

/-- Submitting an IN transfer leaves the thread that starts the transfers. -/
@[simp] theorem submit_in_transfer_kickoff (s : State α) (t : ℕ) (accepted : Bool) :
    (submit_in_transfer c s t accepted).1.kickoff = s.kickoff := by
  rw [submit_in_transfer_frame]

/-- Submitting an IN transfer completes none. -/
@[simp] theorem submit_in_transfer_completions (s : State α) (t : ℕ) (accepted : Bool) :
    (submit_in_transfer c s t accepted).1.completions = s.completions := by
  rw [submit_in_transfer_frame]

/-- Submitting an IN transfer does not count samples to be sent. -/
@[simp] theorem submit_in_transfer_m_out_sampleno (s : State α) (t : ℕ)
    (accepted : Bool) :
    (submit_in_transfer c s t accepted).1.m_out_sampleno = s.m_out_sampleno := by
  rw [submit_in_transfer_frame]

/-- A submission of an IN transfer returns `0` exactly when the run wants more samples
and libusb accepts it. -/
theorem submit_in_transfer_snd (s : State α) (t : ℕ) (accepted : Bool) :
    (submit_in_transfer c s t accepted).2 = true ↔
      c.wants s.m_requested_sampleno ∧ accepted = true := by
  rw [submit_in_transfer]
  split
  · rename_i hw
    cases accepted <;> simp [hw]
  · rename_i hw
    simp [hw]

/-- The IN direction after a submission, by what the submission returned. -/
theorem submit_in_transfer_ins (s : State α) (t : ℕ) (accepted : Bool) :
    (submit_in_transfer c s t accepted).1.ins =
      if (submit_in_transfer c s t accepted).2 then s.ins.submit t else s.ins := by
  rw [submit_in_transfer]
  split
  · cases accepted <;> rfl
  · rfl

/-- The answer of `libusb_submit_transfer` is passed on. -/
@[simp] theorem send_out_transfer_snd (s : State α) (t : ℕ) (accepted : Bool) :
    (send_out_transfer s t accepted).2 = accepted := by
  cases accepted <;> rfl

/-- A submission of an OUT transfer changes the OUT direction, the OUT sample number
and the cancellation, and nothing else. -/
theorem submit_out_transfer_frame (s : State α) (t : ℕ) (fill : Fill) (accepted : Bool) :
    (submit_out_transfer c s t fill accepted).1 = { s with
      outs := (submit_out_transfer c s t fill accepted).1.outs
      m_out_sampleno := (submit_out_transfer c s t fill accepted).1.m_out_sampleno
      cancelled := (submit_out_transfer c s t fill accepted).1.cancelled } := by
  simp only [submit_out_transfer, send_out_transfer]
  split
  · cases fill with
    | filled => cases accepted <;> rfl
    | threw k =>
        dsimp only
        split
        · rfl
        · cases accepted <;> rfl
  · rfl

/-- Submitting an OUT transfer leaves the IN transfers alone. -/
@[simp] theorem submit_out_transfer_ins (s : State α) (t : ℕ) (fill : Fill)
    (accepted : Bool) : (submit_out_transfer c s t fill accepted).1.ins = s.ins := by
  rw [submit_out_transfer_frame]

/-- Submitting an OUT transfer leaves the callback that is running. -/
@[simp] theorem submit_out_transfer_callback (s : State α) (t : ℕ) (fill : Fill)
    (accepted : Bool) :
    (submit_out_transfer c s t fill accepted).1.callback = s.callback := by
  rw [submit_out_transfer_frame]

/-- Submitting an OUT transfer leaves the thread that starts the transfers. -/
@[simp] theorem submit_out_transfer_kickoff (s : State α) (t : ℕ) (fill : Fill)
    (accepted : Bool) :
    (submit_out_transfer c s t fill accepted).1.kickoff = s.kickoff := by
  rw [submit_out_transfer_frame]

/-- Submitting an OUT transfer completes none. -/
@[simp] theorem submit_out_transfer_completions (s : State α) (t : ℕ) (fill : Fill)
    (accepted : Bool) :
    (submit_out_transfer c s t fill accepted).1.completions = s.completions := by
  rw [submit_out_transfer_frame]

/-- The buffer of an OUT transfer is sent: it was filled, or the exception came after
the last requested sample. -/
def Config.sends (c : Config) (sampleno : ℕ) : Fill → Prop
  | .filled => True
  | .threw k => ¬c.wants (Counter.add 64 sampleno k)

/-- A submission of an OUT transfer returns `0` exactly when the run wants more
samples, its buffer is sent, and libusb accepts it. -/
theorem submit_out_transfer_snd (s : State α) (t : ℕ) (fill : Fill) (accepted : Bool) :
    (submit_out_transfer c s t fill accepted).2 = true ↔
      c.wants s.m_out_sampleno ∧ c.sends s.m_out_sampleno fill ∧ accepted = true := by
  simp only [submit_out_transfer]
  split
  · rename_i hw
    cases fill with
    | filled => simp [hw, Config.sends]
    | threw k =>
        dsimp only
        split
        · rename_i hk
          simp [Config.sends, hk]
        · rename_i hk
          simp [hw, Config.sends, hk]
  · rename_i hw
    simp [hw]

/-- The OUT direction after a submission, by what the submission returned. -/
theorem submit_out_transfer_outs (s : State α) (t : ℕ) (fill : Fill) (accepted : Bool) :
    (submit_out_transfer c s t fill accepted).1.outs =
      if (submit_out_transfer c s t fill accepted).2 then s.outs.submit t else s.outs := by
  simp only [submit_out_transfer, send_out_transfer]
  split
  · cases fill with
    | filled => cases accepted <;> rfl
    | threw k =>
        dsimp only
        split
        · rfl
        · cases accepted <;> rfl
  · rfl

/-! ### The accounting of one direction -/

/-- `num_active` is the number of transfers in flight, and a direction that has
submitted nothing has nothing in flight. -/
structure Pipe.Counted (p : Pipe) : Prop where
  active : p.num_active = p.in_flight.length
  submitted : p.in_flight.length ≤ p.submitted

/-- A transfer that is submitted is counted. -/
theorem Pipe.Counted.submit {p : Pipe} (h : p.Counted) (t : ℕ) :
    (p.submit t).Counted := by
  obtain ⟨hactive, hsubmitted⟩ := h
  constructor <;> simp only [Pipe.submit, List.length_cons]
  · push_cast
    omega
  · omega

/-- One that comes back is not counted any more. -/
theorem Pipe.Counted.retire {p : Pipe} (h : p.Counted) {t : ℕ} (ht : t ∈ p.in_flight) :
    (p.retire t).Counted := by
  obtain ⟨hactive, hsubmitted⟩ := h
  have hlen := List.length_erase_of_mem ht
  have hpos := List.length_pos_of_mem ht
  constructor <;> simp only [Pipe.retire, hlen]
  · omega
  · omega

/-- How many transfers of the device are in flight. -/
def State.flying (s : State α) : ℕ := s.ins.in_flight.length + s.outs.in_flight.length

/-- How many submissions libusb has accepted in this run. -/
def State.accepted (s : State α) : ℕ := s.ins.submitted + s.outs.submitted

/-- The accounting invariant of a run. -/
structure Inv (s : State α) : Prop where
  ins : s.ins.Counted
  outs : s.outs.Counted
  /-- no callback runs while the kickoff thread holds `m_state` -/
  starting : s.kickoff ≠ .finished →
    s.callback = .outside ∧ s.completions = 0 ∧ s.flying = s.accepted
  /-- a running callback has not called `completion` yet -/
  running : s.callback ≠ .outside → s.completions = 0 ∧ 0 < s.accepted
  /-- between callbacks the count tells whether the last transfer has come back -/
  resting : s.kickoff = .finished → s.callback = .outside →
    s.completions = if s.accepted ≠ 0 ∧ s.flying = 0 then 1 else 0

/-- Nothing is in flight before the run. -/
theorem Inv.init : Inv (State.init c : State α) where
  ins := ⟨rfl, Nat.le_refl _⟩
  outs := ⟨rfl, Nat.le_refl _⟩
  starting _ := ⟨rfl, rfl, rfl⟩
  running h := absurd rfl h
  resting h := by simp [State.init] at h

/-- `r` has the directions of `s`, with at most one more transfer submitted. -/
def State.Submits (s r : State α) : Prop :=
  (r.ins = s.ins ∧ r.outs = s.outs) ∨
    (∃ t, r.ins = s.ins.submit t ∧ r.outs = s.outs) ∨
    ∃ t, r.ins = s.ins ∧ r.outs = s.outs.submit t

/-- Submitting keeps the count of the IN transfers. -/
theorem State.Submits.ins {s r : State α} (h : s.Submits r) (hs : s.ins.Counted) :
    r.ins.Counted := by
  rcases h with ⟨hi, -⟩ | ⟨t, hi, -⟩ | ⟨t, hi, -⟩ <;> rw [hi]
  · exact hs
  · exact hs.submit t
  · exact hs

/-- It keeps that of the OUT transfers. -/
theorem State.Submits.outs {s r : State α} (h : s.Submits r) (hs : s.outs.Counted) :
    r.outs.Counted := by
  rcases h with ⟨-, ho⟩ | ⟨t, -, ho⟩ | ⟨t, -, ho⟩ <;> rw [ho]
  · exact hs
  · exact hs
  · exact hs.submit t

/-- What a submission adds to the transfers in flight it adds to those accepted. -/
theorem State.Submits.counts {s r : State α} (h : s.Submits r) :
    ∃ n, r.flying = s.flying + n ∧ r.accepted = s.accepted + n := by
  simp only [State.flying, State.accepted]
  rcases h with ⟨hi, ho⟩ | ⟨t, hi, ho⟩ | ⟨t, hi, ho⟩
  · exact ⟨0, by rw [hi, ho]; rfl, by rw [hi, ho]; rfl⟩
  · refine ⟨1, ?_, ?_⟩ <;> simp only [hi, ho, Pipe.submit, List.length_cons] <;> omega
  · refine ⟨1, ?_, ?_⟩ <;> simp only [hi, ho, Pipe.submit, List.length_cons] <;> omega

/-- `submit_in_transfer` submits, or does nothing. -/
theorem submits_submit_in_transfer (s : State α) (t : ℕ) (accepted : Bool) :
    s.Submits (submit_in_transfer c s t accepted).1 := by
  cases hr : (submit_in_transfer c s t accepted).2 with
  | true =>
      refine .inr (.inl ⟨t, ?_, by simp⟩)
      rw [submit_in_transfer_ins, hr, if_pos rfl]
  | false =>
      refine .inl ⟨?_, by simp⟩
      rw [submit_in_transfer_ins, hr, if_neg (by simp)]

/-- So does `submit_out_transfer`. -/
theorem submits_submit_out_transfer (s : State α) (t : ℕ) (fill : Fill)
    (accepted : Bool) : s.Submits (submit_out_transfer c s t fill accepted).1 := by
  cases hr : (submit_out_transfer c s t fill accepted).2 with
  | true =>
      refine .inr (.inr ⟨t, by simp, ?_⟩)
      rw [submit_out_transfer_outs, hr, if_pos rfl]
  | false =>
      refine .inl ⟨by simp, ?_⟩
      rw [submit_out_transfer_outs, hr, if_neg (by simp)]

/-- The kickoff thread keeps the invariant when it moves on from a submission. -/
theorem Inv.kick {s r : State α} {k : Kickoff} (h : Inv s) (hk : s.kickoff ≠ .finished)
    (hcallback : r.callback = s.callback) (hcompletions : r.completions = s.completions)
    (hsubmits : s.Submits r) : Inv { r with kickoff := k } := by
  obtain ⟨houtside, hzero, hflying⟩ := h.starting hk
  have hflying' : r.flying = r.accepted := by
    obtain ⟨n, hf, ha⟩ := hsubmits.counts
    omega
  refine ⟨hsubmits.ins h.ins, hsubmits.outs h.outs, ?_, ?_, ?_⟩
  · intro _
    exact ⟨hcallback.trans houtside, hcompletions.trans hzero, hflying'⟩
  · intro hrunning
    exact absurd (hcallback.trans houtside) hrunning
  · intro _ _
    have hno : ¬(r.accepted ≠ 0 ∧ r.flying = 0) := by omega
    exact (hcompletions.trans hzero).trans (if_neg hno).symm

/-- The thread that starts the transfers keeps the counts. -/
theorem Inv.kickoffStep {s t : State α} {a : Act α} (h : Inv s)
    (hstep : kickoffStep c s a = some t) : Inv t := by
  cases a with
  | kickoffIn accepted =>
      simp only [Streaming.kickoffStep] at hstep
      split at hstep
      · rename_i u todo hk
        obtain rfl := Option.some.inj hstep
        exact h.kick (by simp [hk]) (by simp) (by simp) (submits_submit_in_transfer s u _)
      · exact absurd hstep (by simp)
  | kickoffOut fill accepted =>
      simp only [Streaming.kickoffStep] at hstep
      split at hstep
      · rename_i u todo hk
        obtain rfl := Option.some.inj hstep
        exact h.kick (by simp [hk]) (by simp) (by simp)
          (submits_submit_out_transfer s u _ _)
      · exact absurd hstep (by simp)
  | kickoffNext =>
      simp only [Streaming.kickoffStep] at hstep
      split at hstep
      · rename_i hk
        obtain rfl := Option.some.inj hstep
        exact h.kick (by simp [hk]) rfl rfl (.inl ⟨rfl, rfl⟩)
      · rename_i hk
        obtain rfl := Option.some.inj hstep
        exact h.kick (by simp [hk]) rfl rfl (.inl ⟨rfl, rfl⟩)
      · exact absurd hstep (by simp)
  | in_completion | out_completion | usb | cancel =>
      simp [Streaming.kickoffStep] at hstep

/-- Entering a callback keeps the invariant: the transfer it is for was in flight, so
`completion` has not been called. -/
theorem Inv.enter {s r : State α} (h : Inv s) (hk : s.kickoff = .finished)
    (hc : s.callback = .outside) (hflying : s.flying ≠ 0)
    (hins : r.ins.Counted) (houts : r.outs.Counted) (hkickoff : r.kickoff = s.kickoff)
    (hcompletions : r.completions = s.completions) (haccepted : r.accepted = s.accepted)
    (hrunning : r.callback ≠ .outside) : Inv r := by
  have hzero : s.completions = 0 :=
    (h.resting hk hc).trans (if_neg (fun hx => hflying hx.2))
  have hpos : 0 < s.accepted := by
    have hi := h.ins.submitted
    have ho := h.outs.submitted
    simp only [State.flying, State.accepted] at *
    omega
  refine ⟨hins, houts, ?_, ?_, ?_⟩
  · intro hne
    exact absurd (hkickoff.trans hk) hne
  · intro _
    exact ⟨hcompletions.trans hzero, haccepted ▸ hpos⟩
  · intro _ hout
    exact absurd hout hrunning

/-- Entering a callback keeps the counts. -/
theorem Inv.enterStep {s t : State α} {a : Act α} (h : Inv s)
    (hstep : enterStep c s a = some t) : Inv t := by
  cases a with
  | in_completion u status data room =>
      simp only [Streaming.enterStep] at hstep
      split at hstep
      · rename_i hguard
        obtain ⟨hk, hc, hu⟩ := hguard
        have hflying : s.flying ≠ 0 := by
          have hpos := List.length_pos_of_mem hu
          simp only [State.flying]
          omega
        split at hstep
        · obtain rfl := Option.some.inj hstep
          exact h.enter hk hc hflying (h.ins.retire hu) h.outs rfl rfl rfl (by simp)
        · split at hstep
          · obtain rfl := Option.some.inj hstep
            exact h.enter hk hc hflying (h.ins.retire hu) h.outs rfl rfl rfl (by simp)
          · obtain rfl := Option.some.inj hstep
            exact h.enter hk hc hflying (h.ins.retire hu) h.outs rfl rfl rfl (by simp)
      · exact absurd hstep (by simp)
  | out_completion u status =>
      simp only [Streaming.enterStep] at hstep
      split at hstep
      · rename_i hguard
        obtain ⟨hk, hc, hu⟩ := hguard
        have hflying : s.flying ≠ 0 := by
          have hpos := List.length_pos_of_mem hu
          simp only [State.flying]
          omega
        split at hstep
        · obtain rfl := Option.some.inj hstep
          exact h.enter hk hc hflying h.ins (h.outs.retire hu) rfl rfl rfl (by simp)
        · split at hstep
          · obtain rfl := Option.some.inj hstep
            exact h.enter hk hc hflying h.ins (h.outs.retire hu) rfl rfl rfl (by simp)
          · obtain rfl := Option.some.inj hstep
            exact h.enter hk hc hflying h.ins (h.outs.retire hu) rfl rfl rfl (by simp)
      · exact absurd hstep (by simp)
  | kickoffIn | kickoffOut | kickoffNext | usb | cancel =>
      simp [Streaming.enterStep] at hstep

/-- The end of a callback: with nothing in flight it calls `completion`. -/
theorem Inv.leave {s : State α} (h : Inv s) (hc : s.callback = .leaving) {n : ℕ}
    (hn : n = if s.outs.num_active = 0 ∧ s.ins.num_active = 0 then 1 else 0) :
    Inv { s with completions := s.completions + n, callback := .outside } := by
  obtain ⟨hzero, hpos⟩ := h.running (by simp [hc])
  have hk : s.kickoff = .finished := by
    by_contra hne
    exact absurd (h.starting hne).1 (by simp [hc])
  refine ⟨h.ins, h.outs, fun hne => absurd hk hne, fun hne => absurd rfl hne, ?_⟩
  intro _ _
  have hactive : (s.outs.num_active = 0 ∧ s.ins.num_active = 0) ↔ s.flying = 0 := by
    have hi := h.ins.active
    have ho := h.outs.active
    simp only [State.flying]
    omega
  show s.completions + n = if s.accepted ≠ 0 ∧ s.flying = 0 then 1 else 0
  rw [hn, hzero, Nat.zero_add]
  refine if_congr ?_ rfl rfl
  rw [hactive]
  exact ⟨fun hf => ⟨by omega, hf⟩, fun hf => hf.2⟩

/-- A callback keeps the invariant when it moves on from a submission. -/
theorem Inv.resubmit {s r : State α} (h : Inv s) (hc : s.callback ≠ .outside)
    (hkickoff : r.kickoff = s.kickoff) (hcompletions : r.completions = s.completions)
    (hsubmits : s.Submits r) : Inv { r with callback := .leaving } := by
  obtain ⟨hzero, hpos⟩ := h.running hc
  have hk : s.kickoff = .finished := by
    by_contra hne
    exact absurd (h.starting hne).1 hc
  obtain ⟨n, -, haccepted⟩ := hsubmits.counts
  refine ⟨hsubmits.ins h.ins, hsubmits.outs h.outs,
    fun hne => absurd (hkickoff.trans hk) hne, ?_, ?_⟩
  · intro _
    refine ⟨hcompletions.trans hzero, ?_⟩
    show 0 < r.accepted
    omega
  · intro _ hout
    exact absurd hout (by simp)

/-- A step inside a callback keeps the counts. -/
theorem Inv.callbackStep {s t : State α} {fill : Fill} {accepted : Bool} (h : Inv s)
    (hstep : callbackStep c s fill accepted = some t) : Inv t := by
  simp only [Streaming.callbackStep] at hstep
  cases hc : s.callback with
  | outside => simp [hc] at hstep
  | resubmitIn u =>
      simp only [hc, Option.some.injEq] at hstep
      subst hstep
      have hne : s.callback ≠ .outside := by simp [hc]
      split
      · exact h.resubmit hne rfl rfl (.inl ⟨rfl, rfl⟩)
      · exact h.resubmit hne (by simp) (by simp) (submits_submit_in_transfer s u _)
  | resubmitOut u =>
      simp only [hc, Option.some.injEq] at hstep
      subst hstep
      have hne : s.callback ≠ .outside := by simp [hc]
      split
      · exact h.resubmit hne rfl rfl (.inl ⟨rfl, rfl⟩)
      · exact h.resubmit hne (by simp) (by simp) (submits_submit_out_transfer s u _ _)
  | leaving =>
      simp only [hc] at hstep
      split at hstep
      · rename_i hzero
        obtain rfl := Option.some.inj hstep
        exact h.leave hc (if_pos hzero).symm
      · rename_i hzero
        obtain rfl := Option.some.inj hstep
        exact h.leave hc (n := 0) (if_neg hzero).symm

/-- **The step lemma**: every action keeps the accounting. -/
theorem Inv.step {s t : State α} {a : Act α} (h : Inv s)
    (hstep : (machine α c).step s a = some t) : Inv t := by
  cases a with
  | kickoffIn accepted => exact h.kickoffStep (a := .kickoffIn accepted) hstep
  | kickoffNext => exact h.kickoffStep (a := .kickoffNext) hstep
  | kickoffOut fill accepted =>
      simp only [machine] at hstep
      split at hstep
      · exact h.kickoffStep hstep
      · exact absurd hstep (by simp)
  | in_completion u status data room =>
      exact h.enterStep (a := .in_completion u status data room) hstep
  | out_completion u status => exact h.enterStep (c := c) (a := .out_completion u status) hstep
  | usb fill accepted =>
      simp only [machine] at hstep
      split at hstep
      · exact h.callbackStep hstep
      · exact absurd hstep (by simp)
  | cancel =>
      simp only [machine, Option.some.injEq] at hstep
      subst hstep
      exact ⟨h.ins, h.outs, h.starting, h.running, h.resting⟩

/-! ### Which kickoffs start the device -/

/-- The action is a kickoff submission that libusb accepts: of an IN transfer, or of an
OUT transfer whose first filling is to be sent. -/
def Act.KickoffAccepted (c : Config) : Act α → Prop
  | .kickoffIn accepted => accepted = true
  | .kickoffOut fill accepted => c.sends 0 fill ∧ accepted = true
  | _ => False

/-- While nothing is accepted, the kickoff thread is at sample zero in both
directions. -/
structure Fresh (s : State α) : Prop where
  requested : s.accepted = 0 → ∀ todo, s.kickoff = .ins todo → s.m_requested_sampleno = 0
  out : s.accepted = 0 → s.kickoff ≠ .finished → s.m_out_sampleno = 0

/-- The first transfer is always wanted. -/
theorem Config.wants_zero (c : Config) : c.wants 0 := by
  rw [Config.wants]
  omega

/-- **What an accepted kickoff is.** A step of the kickoff thread makes the first
accepted submission exactly when it is `KickoffAccepted`. -/
theorem Fresh.kickoffStep {s t : State α} {a : Act α} (h : Fresh s)
    (hstep : kickoffStep c s a = some t) :
    Fresh t ∧ (t.accepted ≠ 0 ↔ s.accepted ≠ 0 ∨ a.KickoffAccepted c) := by
  cases a with
  | kickoffIn accepted =>
      simp only [Streaming.kickoffStep] at hstep
      split at hstep
      · rename_i u todo hk
        obtain rfl := Option.some.inj hstep
        obtain ⟨n, -, hn⟩ := (submits_submit_in_transfer (c := c) s u accepted).counts
        by_cases hs : s.accepted = 0
        · have hzero := h.requested hs _ hk
          have hret : (submit_in_transfer c s u accepted).2 = accepted := by
            rw [Bool.eq_iff_iff, submit_in_transfer_snd, hzero]
            simp [c.wants_zero]
          have hpipe := submit_in_transfer_ins (c := c) s u accepted
          rw [hret] at hpipe
          have hcount : (submit_in_transfer c s u accepted).1.accepted =
              if accepted then 1 else 0 := by
            simp only [State.accepted] at hs ⊢
            rw [hpipe, submit_in_transfer_outs]
            cases accepted with
            | true => simp only [if_true, Pipe.submit]; omega
            | false => simp only [Bool.false_eq_true, if_false]; omega
          refine ⟨⟨?_, ?_⟩, ?_⟩
          · intro h0 todo' htodo
            change (submit_in_transfer c s u accepted).1.accepted = 0 at h0
            cases accepted with
            | true => simp [hcount] at h0
            | false => simp [hret] at htodo
          · intro _ _
            simpa using h.out hs (by simp [hk])
          · change (submit_in_transfer c s u accepted).1.accepted ≠ 0 ↔ _
            rw [hcount]
            cases accepted <;> simp [hs, Act.KickoffAccepted]
        · have hpos : (submit_in_transfer c s u accepted).1.accepted ≠ 0 := by omega
          exact ⟨⟨fun h0 => absurd h0 hpos, fun h0 => absurd h0 hpos⟩,
            fun _ => .inl hs, fun _ => hpos⟩
      · exact absurd hstep (by simp)
  | kickoffOut fill accepted =>
      simp only [Streaming.kickoffStep] at hstep
      split at hstep
      · rename_i u todo hk
        obtain rfl := Option.some.inj hstep
        obtain ⟨n, -, hn⟩ :=
          (submits_submit_out_transfer (c := c) s u fill accepted).counts
        by_cases hs : s.accepted = 0
        · have hzero := h.out hs (by simp [hk])
          have hret : (submit_out_transfer c s u fill accepted).2 = true ↔
              c.sends 0 fill ∧ accepted = true := by
            rw [submit_out_transfer_snd, hzero]
            simp [c.wants_zero]
          have hpipe := submit_out_transfer_outs (c := c) s u fill accepted
          cases hr : (submit_out_transfer c s u fill accepted).2 with
          | true =>
              rw [hr, if_pos rfl] at hpipe
              have hpos : (submit_out_transfer c s u fill accepted).1.accepted ≠ 0 := by
                simp only [State.accepted, hpipe, Pipe.submit]
                omega
              exact ⟨⟨fun h0 => absurd h0 hpos, fun h0 => absurd h0 hpos⟩,
                fun _ => .inr (hret.mp hr), fun _ => hpos⟩
          | false =>
              rw [hr, if_neg (by simp)] at hpipe
              have hsame : (submit_out_transfer c s u fill accepted).1.accepted = 0 := by
                simp only [State.accepted] at hs ⊢
                rw [hpipe, submit_out_transfer_ins]
                exact hs
              refine ⟨⟨?_, ?_⟩, ?_⟩
              · intro _ todo' htodo
                simp at htodo
              · intro _ hne
                exact absurd rfl hne
              · constructor
                · intro hne
                  exact absurd hsame hne
                · rintro (hne | hacc)
                  · exact absurd hs hne
                  · rw [hret.mpr hacc] at hr
                    exact absurd hr (by simp)
        · have hpos : (submit_out_transfer c s u fill accepted).1.accepted ≠ 0 := by omega
          exact ⟨⟨fun h0 => absurd h0 hpos, fun h0 => absurd h0 hpos⟩,
            fun _ => .inl hs, fun _ => hpos⟩
      · exact absurd hstep (by simp)
  | kickoffNext =>
      simp only [Streaming.kickoffStep] at hstep
      split at hstep
      · rename_i hk
        obtain rfl := Option.some.inj hstep
        exact ⟨⟨fun _ todo htodo => by simp at htodo, fun h0 _ => h.out h0 (by simp [hk])⟩,
          by simp [State.accepted, Act.KickoffAccepted]⟩
      · rename_i hk
        obtain rfl := Option.some.inj hstep
        exact ⟨⟨fun _ todo htodo => by simp at htodo, fun _ hne => absurd rfl hne⟩,
          by simp [State.accepted, Act.KickoffAccepted]⟩
      · exact absurd hstep (by simp)
  | in_completion | out_completion | usb | cancel =>
      simp [Streaming.kickoffStep] at hstep

/-- Entering a callback submits nothing. -/
theorem enterStep_frame {s t : State α} {a : Act α} (hstep : enterStep c s a = some t) :
    t.kickoff = s.kickoff ∧ t.accepted = s.accepted ∧
      t.m_requested_sampleno = s.m_requested_sampleno ∧
      t.m_out_sampleno = s.m_out_sampleno := by
  cases a with
  | in_completion u status data room =>
      simp only [enterStep] at hstep
      split at hstep
      · split at hstep
        · obtain rfl := Option.some.inj hstep
          exact ⟨rfl, rfl, rfl, rfl⟩
        · split at hstep <;> obtain rfl := Option.some.inj hstep <;>
            exact ⟨rfl, rfl, rfl, rfl⟩
      · exact absurd hstep (by simp)
  | out_completion u status =>
      simp only [enterStep] at hstep
      split at hstep
      · split at hstep
        · obtain rfl := Option.some.inj hstep
          exact ⟨rfl, rfl, rfl, rfl⟩
        · split at hstep <;> obtain rfl := Option.some.inj hstep <;>
            exact ⟨rfl, rfl, rfl, rfl⟩
      · exact absurd hstep (by simp)
  | kickoffIn | kickoffOut | kickoffNext | usb | cancel => simp [enterStep] at hstep

/-- A running callback is one of a device that has started. -/
theorem callbackStep_accepted {s t : State α} {fill : Fill} {accepted : Bool}
    (h : Inv s) (hstep : callbackStep c s fill accepted = some t) :
    s.accepted ≠ 0 ∧ t.accepted ≠ 0 := by
  have hpos : 0 < s.accepted := by
    refine (h.running ?_).2
    intro hc
    simp [callbackStep, hc] at hstep
  refine ⟨by omega, ?_⟩
  simp only [callbackStep] at hstep
  split at hstep
  · exact absurd hstep (by simp)
  · rename_i u hc
    obtain rfl := Option.some.inj hstep
    obtain ⟨n, -, hn⟩ := (submits_submit_in_transfer (c := c) s u accepted).counts
    split
    · exact Nat.ne_of_gt hpos
    · change (submit_in_transfer c s u accepted).1.accepted ≠ 0
      omega
  · rename_i u hc
    obtain rfl := Option.some.inj hstep
    obtain ⟨n, -, hn⟩ := (submits_submit_out_transfer (c := c) s u fill accepted).counts
    split
    · exact Nat.ne_of_gt hpos
    · change (submit_out_transfer c s u fill accepted).1.accepted ≠ 0
      omega
  · split at hstep <;> obtain rfl := Option.some.inj hstep <;> exact Nat.ne_of_gt hpos

/-- A step of a device that has accepted nothing yet. -/
theorem Fresh.step {s t : State α} {a : Act α} (hinv : Inv s) (h : Fresh s)
    (hstep : (machine α c).step s a = some t) :
    Fresh t ∧ (t.accepted ≠ 0 ↔ s.accepted ≠ 0 ∨ a.KickoffAccepted c) := by
  have hentered : ∀ b : Act α, enterStep c s b = some t →
      Fresh t ∧ (t.accepted ≠ 0 ↔ s.accepted ≠ 0) := by
    intro b hb
    obtain ⟨hk, ha, hr, ho⟩ := enterStep_frame hb
    refine ⟨⟨?_, ?_⟩, by rw [ha]⟩
    · intro h0 todo htodo
      exact hr.trans (h.requested (ha.symm.trans h0) todo (hk.symm.trans htodo))
    · intro h0 hne
      exact ho.trans (h.out (ha.symm.trans h0) (hk ▸ hne))
  cases a with
  | kickoffIn accepted => exact h.kickoffStep (a := .kickoffIn accepted) hstep
  | kickoffNext => exact h.kickoffStep (a := .kickoffNext) hstep
  | kickoffOut fill accepted =>
      simp only [machine] at hstep
      split at hstep
      · exact h.kickoffStep hstep
      · exact absurd hstep (by simp)
  | in_completion u status data room =>
      obtain ⟨hf, ha⟩ := hentered (.in_completion u status data room) hstep
      exact ⟨hf, by simp [ha, Act.KickoffAccepted]⟩
  | out_completion u status =>
      obtain ⟨hf, ha⟩ := hentered (.out_completion u status) hstep
      exact ⟨hf, by simp [ha, Act.KickoffAccepted]⟩
  | usb fill accepted =>
      simp only [machine] at hstep
      split at hstep
      · obtain ⟨hs, ht⟩ := callbackStep_accepted hinv hstep
        exact ⟨⟨fun h0 => absurd h0 ht, fun h0 => absurd h0 ht⟩,
          by simp [hs, ht]⟩
      · exact absurd hstep (by simp)
  | cancel =>
      simp only [machine, Option.some.injEq] at hstep
      subst hstep
      exact ⟨⟨h.requested, h.out⟩, by simp [State.accepted, Act.KickoffAccepted]⟩

/-- **The run lemma.** A run keeps the accounting, and has accepted a submission at its
end exactly when it had at its start or one of its kickoff submissions was accepted. -/
theorem accepted_of_run {s u : State α} {as : List (Act α)} (hinv : Inv s) (h : Fresh s)
    (hrun : (machine α c).run s as = some u) :
    Inv u ∧ (u.accepted ≠ 0 ↔ s.accepted ≠ 0 ∨ ∃ a ∈ as, a.KickoffAccepted c) := by
  induction as generalizing s with
  | nil =>
      obtain rfl : s = u := Option.some.inj hrun
      exact ⟨hinv, by simp⟩
  | cons a as ih =>
      obtain ⟨t, ht, hu⟩ := (machine α c).run_cons_eq_some_iff.mp hrun
      obtain ⟨hfresh, hstep⟩ := h.step hinv ht
      obtain ⟨hinv', hrest⟩ := ih (hinv.step ht) hfresh hu
      refine ⟨hinv', ?_⟩
      rw [hrest, hstep, or_assoc]
      simp

/-- **Exactly one completion per started device.** In every run, once the kickoff has
finished and no transfer is in flight, `Session::completion` has been called exactly
once if and only if libusb accepted one of the kickoff's submissions; and in no run is
it called before that or a second time. -/
theorem completion_iff_kickoffAccepted {as : List (Act α)} {s : State α}
    (hrun : (machine α c).run (.init c) as = some s) :
    (s.Quiescent → (s.completions = 1 ↔ ∃ a ∈ as, a.KickoffAccepted c)) ∧
      (s.completions ≠ 0 → s.Quiescent) ∧ s.completions ≤ 1 := by
  have hfresh : Fresh (State.init c : State α) := ⟨fun _ _ _ => rfl, fun _ _ => rfl⟩
  obtain ⟨hinv, haccepted⟩ := accepted_of_run Inv.init hfresh hrun
  have hstart : (State.init c : State α).accepted = 0 := rfl
  simp only [hstart, ne_eq, not_true_eq_false, false_or] at haccepted
  have hrest : s.kickoff = .finished → s.callback = .outside →
      s.completions = if s.accepted ≠ 0 ∧ s.flying = 0 then 1 else 0 := hinv.resting
  refine ⟨?_, ?_, ?_⟩
  · rintro ⟨hk, hc, hi, ho⟩
    have hflying : s.flying = 0 := by simp [State.flying, hi, ho]
    rw [← haccepted, hrest hk hc]
    simp [hflying]
  · intro hne
    have hc : s.callback = .outside := by
      by_contra hc
      exact hne (hinv.running hc).1
    have hk : s.kickoff = .finished := by
      by_contra hk
      exact hne (hinv.starting hk).2.1
    rw [hrest hk hc] at hne
    obtain ⟨-, hflying⟩ := (ite_ne_right_iff.mp hne).1
    refine ⟨hk, hc, ?_, ?_⟩ <;> rw [← List.length_eq_zero_iff] <;>
      simp only [State.flying] at hflying <;> omega
  · by_cases hc : s.callback = .outside
    · by_cases hk : s.kickoff = .finished
      · rw [hrest hk hc]
        split <;> omega
      · rw [(hinv.starting hk).2.1]
        omega
    · rw [(hinv.running hc).1]
      omega

/-- A noncontinuous run of 300 samples with transfers of 256 samples. -/
def Config.short : Config where
  m_sample_count := 300
  m_samples_per_transfer := 256
  in_transfers := 2
  out_transfers := 2
  sample_count_lt := by decide
  samples_per_transfer_lt := by decide

/-- One accepted IN transfer that later fails is enough for the one completion. -/
theorem completion_iff_kickoffAccepted_short : ∃ s : State ℕ,
    (machine ℕ .short).run (.init .short)
        [.kickoffIn true, .kickoffIn false, .kickoffOut (.threw 0) true,
          .in_completion 0 .NO_DEVICE [] 0, .usb .filled true] = some s ∧
      s.completions = 1 := by
  obtain ⟨s, hs⟩ := Option.isSome_iff_exists.mp
    (show ((machine ℕ .short).run (.init .short)
      [.kickoffIn true, .kickoffIn false, .kickoffOut (.threw 0) true,
        .in_completion 0 .NO_DEVICE [] 0, .usb .filled true]).isSome = true by decide)
  have hq : ((machine ℕ .short).run (.init .short)
      [.kickoffIn true, .kickoffIn false, .kickoffOut (.threw 0) true,
        .in_completion 0 .NO_DEVICE [] 0, .usb .filled true]).all
      (fun s => decide s.Quiescent) = true := by decide
  rw [hs, Option.all_some, decide_eq_true_eq] at hq
  exact ⟨s, hs, ((completion_iff_kickoffAccepted hs).1 hq).mpr
    ⟨.kickoffIn true, by simp, rfl⟩⟩

/-- **A device that is never given back.** When libusb refuses the first IN and the
first OUT transfer of the kickoff, the run ends with nothing in flight and without a
call of `completion`. -/
theorem no_completion :
    ∃ (as : List (Act ℕ)) (s : State ℕ),
      (machine ℕ .short).run (.init .short) as = some s ∧ s.Quiescent ∧
        s.completions ≠ 1 := by
  refine ⟨[.kickoffIn false, .kickoffOut .filled false],
    { (State.init .short : State ℕ) with
      kickoff := .finished
      m_out_sampleno := 256
      cancelled := true }, ?_, ?_, ?_⟩
  · decide
  · decide
  · decide

end Libsmu.Streaming
