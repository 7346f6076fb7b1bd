import Libsmu.EncodeOut
import Libsmu.Lib.Machine
import Mathlib.Logic.Function.Basic

/-!
# Ending a Continuous Run

Three kinds of threads meet in a continuous run. The thread that fills OUT transfers (the
kickoff thread first, the USB thread in `out_completion` afterwards) holds `m_state` from
before the fill until after the submission, also while `encode_out` waits for a sample.
One write thread for each channel pushes the rest of the buffer as the queue has room.
The user thread writes buffers and at some point calls `Session::end` or `Session::cancel`,
which set `m_cancellation` and then wait for `m_state` in `M1000_Device::cancel`.

## Main results

* `no_deadlock_iff`: a state in which the filling thread waits for a sample that will not
  come, holding the `m_state` that the user thread waits for, can be reached exactly when
  one of the channels is in a sourcing mode.
* `Deadlock.step`: no thread leads out of it.
* `three_samples_deadlock`: how it comes about after three samples.
-/

namespace Libsmu.ContinuousEnd

variable {α : Type*} {cap : ℕ}

/-- Where the thread that fills OUT transfers stands. -/
inductive FillerPc
  /-- the kickoff thread has not taken `m_state` yet -/
  | starting
  /-- holding `m_state`, with `left` positions of a transfer to fill, at `encode_out` for
  channel `ch`, and with `more` transfers to fill before `m_state` is released -/
  | filling (left : ℕ) (ch : Channel) (more : ℕ)
  /-- not holding `m_state` -/
  | outside
  deriving DecidableEq

/-- Where the user thread stands. -/
inductive UserPc
  /-- free to write -/
  | running
  /-- in `M1000_Device::cancel`, waiting for `m_state` -/
  | cancelling
  /-- the transfers are cancelled -/
  | ended
  deriving DecidableEq

/-- The device in a continuous run, and its user. -/
structure State (α : Type*) (cap : ℕ) where
  chan : Channel → OutChannel α cap
  /-- the part of each channel's buffer that is not pushed yet -/
  rest : Channel → List α
  filler : FillerPc
  user : UserPc
  /-- whether `Session::m_cancellation` is nonzero -/
  cancelled : Bool
  /-- OUT transfers submitted and not called back -/
  in_flight : ℕ

/-- The start of a continuous run: the channels are in the given modes, with nothing
queued and some data buffered. -/
def State.init (cap : ℕ) (mode : Channel → Mode) (data : Channel → List α) : State α cap where
  chan ch := { OutChannel.fresh (mode ch) with m_out_samples_avail := (data ch).length % 2 ^ 32 }
  rest := data
  filler := .starting
  user := .running
  cancelled := false
  in_flight := 0

/-- One step of one of the threads. -/
inductive Act (α : Type*)
  /-- the kickoff thread locks `m_state` and turns to the OUT transfers -/
  | kickoff
  /-- libusb calls back a completed OUT transfer, and `out_completion` locks `m_state` -/
  | out_completion
  /-- `encode_out` of the channel whose turn it is -/
  | encode
  /-- `libusb_submit_transfer` of the filled transfer -/
  | submit (accepted : Bool)
  /-- the write thread of `ch` pushes `k` samples -/
  | push (ch : Channel) (k : ℕ)
  /-- `write(buf, ch, false)` -/
  | write (ch : Channel) (buf : List α)
  /-- `Session::end` or `Session::cancel` sets `m_cancellation` and comes to `lock()` -/
  | cancel
  /-- `lock()` succeeds, and the transfers are cancelled -/
  | lock

/-- After the transfer is submitted: on to the next one, or release `m_state`. -/
def FillerPc.afterSubmit (S more : ℕ) : FillerPc :=
  match more with
  | 0 => .outside
  | more + 1 => .filling S .A more

/-- The encoding of channel A is followed by that of channel B, and that by the next
position. -/
def FillerPc.afterEncode (left : ℕ) (ch : Channel) (more : ℕ) : FillerPc :=
  match ch with
  | .A => .filling (left + 1) .B more
  | .B => .filling left .A more

/-- Steps of the thread that fills OUT transfers. -/
def fillerStep (S out_transfers : ℕ) (s : State α cap) : Act α → Option (State α cap)
  | .kickoff =>
      match s.filler with
      | .starting => some { s with filler := .afterSubmit S out_transfers }
      | _ => none
  | .out_completion =>
      match s.filler, s.in_flight with
      | .outside, n + 1 =>
          some { s with
            in_flight := n
            filler := if s.cancelled then .outside else .filling S .A 0 }
      | _, _ => none
  | .encode =>
      match s.filler with
      | .filling (left + 1) ch more =>
          match (s.chan ch).encode_sample 0 false with
          | .done _ c =>
              some { s with
                chan := Function.update s.chan ch c
                filler := .afterEncode left ch more }
          | .noFallback => none
          | .waits => none
      | _ => none
  | .submit accepted =>
      match s.filler with
      | .filling 0 _ more =>
          if accepted then
            some { s with in_flight := s.in_flight + 1, filler := .afterSubmit S more }
          else some { s with cancelled := true, filler := .outside }
      | _ => none
  | _ => none

/-- The threads of the device and its user as a machine. -/
def machine (α : Type*) (S out_transfers cap : ℕ) : Machine (State α cap) (Act α) where
  step s
    | .push ch k =>
        if k ≤ (s.rest ch).length then
          ((s.chan ch).m_out_samples_q.pushAll ((s.rest ch).take k)).map fun q =>
            { s with
              chan := Function.update s.chan ch { s.chan ch with m_out_samples_q := q }
              rest := Function.update s.rest ch ((s.rest ch).drop k) }
        else none
    | .write ch buf =>
        match s.user, s.rest ch with
        | .running, [] =>
            some { s with
              chan := Function.update s.chan ch { s.chan ch with
                m_out_samples_avail :=
                  Counter.add 32 (s.chan ch).m_out_samples_avail buf.length }
              rest := Function.update s.rest ch buf }
        | _, _ => none
    | .cancel =>
        match s.user with
        | .running => some { s with user := .cancelling, cancelled := true }
        | _ => none
    | .lock =>
        match s.user, s.filler with
        | .cancelling, .starting => some { s with user := .ended }
        | .cancelling, .outside => some { s with user := .ended }
        | _, _ => none
    | .kickoff => fillerStep S out_transfers s .kickoff
    | .out_completion => fillerStep S out_transfers s .out_completion
    | .encode => fillerStep S out_transfers s .encode
    | .submit accepted => fillerStep S out_transfers s (.submit accepted)

/-- The filling thread waits in `encode_out` for a sample of a channel for which nothing
is queued or buffered, and the user thread waits for the `m_state` it holds. -/
def Deadlock (s : State α cap) : Prop :=
  ∃ left ch more, s.filler = .filling (left + 1) ch more ∧
    (s.chan ch).encode_sample 0 false = .waits ∧ s.rest ch = [] ∧ s.user = .cancelling

variable {S out_transfers : ℕ} {s t : State α cap}

/-! ### Floating channels -/

/-- No step changes a mode. -/
theorem mode_of_step {a : Act α} (hstep : (machine α S out_transfers cap).step s a = some t)
    (ch : Channel) : (t.chan ch).m_mode = (s.chan ch).m_mode := by
  have hupdate : ∀ {ch' : Channel} {c : OutChannel α cap}, c.m_mode = (s.chan ch').m_mode →
      (Function.update s.chan ch' c ch).m_mode = (s.chan ch).m_mode := by
    intro ch' c hc
    by_cases hch : ch = ch'
    · subst hch
      rw [Function.update_self]
      exact hc
    · rw [Function.update_of_ne hch]
  cases a with
  | kickoff | out_completion =>
      simp only [machine, fillerStep] at hstep
      split at hstep
      · obtain rfl := Option.some.inj hstep
        rfl
      · cases hstep
  | encode =>
      simp only [machine, fillerStep] at hstep
      split at hstep
      · split at hstep
        · rename_i hdone
          obtain rfl := Option.some.inj hstep
          exact hupdate (OutChannel.m_mode_of_encode_sample hdone)
        · cases hstep
        · cases hstep
      · cases hstep
  | submit accepted =>
      simp only [machine, fillerStep] at hstep
      split at hstep
      · split at hstep <;> obtain rfl := Option.some.inj hstep <;> rfl
      · cases hstep
  | push ch' k =>
      simp only [machine] at hstep
      split at hstep
      · obtain ⟨q, -, rfl⟩ := Option.map_eq_some_iff.mp hstep
        exact hupdate rfl
      · cases hstep
  | write ch' buf =>
      simp only [machine] at hstep
      split at hstep
      · obtain rfl := Option.some.inj hstep
        exact hupdate rfl
      · cases hstep
  | cancel =>
      simp only [machine] at hstep
      split at hstep
      · obtain rfl := Option.some.inj hstep
        rfl
      · cases hstep
  | lock =>
      simp only [machine] at hstep
      split at hstep
      · obtain rfl := Option.some.inj hstep
        rfl
      · obtain rfl := Option.some.inj hstep
        rfl
      · cases hstep

/-- A channel that waits in a continuous run is a sourcing one. -/
theorem sourcing_of_waits {N : ℕ} {peek : Bool} {c : OutChannel α cap}
    (h : c.encode_sample N peek = .waits) : c.m_mode.sourcing := by
  by_contra hsrc
  rw [OutChannel.encode_sample_of_floating hsrc] at h
  cases h

/-! ### Permanence -/

/-- **No thread leads out of a deadlock.** -/
theorem Deadlock.step {a : Act α} (h : Deadlock s)
    (hstep : (machine α S out_transfers cap).step s a = some t) : Deadlock t := by
  obtain ⟨left, ch, more, hfiller, hwaits, hrest, huser⟩ := h
  cases a with
  | kickoff | out_completion =>
      simp only [machine, fillerStep, hfiller] at hstep
      cases hstep
  | encode =>
      simp only [machine, fillerStep, hfiller, hwaits] at hstep
      cases hstep
  | submit accepted =>
      simp only [machine, fillerStep, hfiller] at hstep
      cases hstep
  | push ch' k =>
      simp only [machine] at hstep
      split at hstep
      · rename_i hk
        obtain ⟨q, hq, rfl⟩ := Option.map_eq_some_iff.mp hstep
        by_cases hch : ch = ch'
        · subst hch
          refine ⟨left, ch, more, hfiller, ?_, ?_, huser⟩
          · rw [hrest, List.take_nil, BoundedQueue.pushAll_eq_some_iff, List.append_nil] at hq
            obtain rfl := BoundedQueue.ext hq.2
            simp only [Function.update_self]
            exact hwaits
          · simp only [Function.update_self, hrest, List.drop_nil]
        · refine ⟨left, ch, more, hfiller, ?_, ?_, huser⟩
          · simp only [Function.update_of_ne hch]
            exact hwaits
          · simp only [Function.update_of_ne hch]
            exact hrest
      · cases hstep
  | write ch' buf | cancel =>
      simp only [machine, huser] at hstep
      cases hstep
  | lock =>
      simp only [machine, huser, hfiller] at hstep
      cases hstep

/-! ### Running out of samples -/

/-- The samples of a channel that are still to be sent. -/
def State.toCome (s : State α cap) (ch : Channel) : ℕ :=
  (s.chan ch).unused.length + (s.rest ch).length

/-- The samples of both channels that are still to be sent. -/
def State.total (s : State α cap) : ℕ := s.toCome .A + s.toCome .B

/-- Only one channel's samples change in a step that works on one channel. -/
theorem total_lt_of_toCome_lt (ch : Channel) (hlt : t.toCome ch < s.toCome ch)
    (hother : ∀ ch', ch' ≠ ch → t.toCome ch' = s.toCome ch') : t.total < s.total := by
  simp only [State.total]
  cases ch with
  | A =>
      have := hother .B (by decide)
      omega
  | B =>
      have := hother .A (by decide)
      omega

/-- The filling thread is at work, and the user may still call `end`. -/
structure Filling (s : State α cap) (left : ℕ) (ch : Channel) (more : ℕ) : Prop where
  filler : s.filler = .filling left ch more
  user : s.user = .running
  cancelled : s.cancelled = false

/-- The step of an `encode_out` that returns. -/
theorem encode_step {left more : ℕ} {ch : Channel} (h : s.filler = .filling (left + 1) ch more)
    {val : Option α} {c : OutChannel α cap}
    (hdone : (s.chan ch).encode_sample 0 false = .done val c) :
    (machine α S out_transfers cap).step s .encode = some { s with
      chan := Function.update s.chan ch c
      filler := .afterEncode left ch more } := by
  simp only [machine, fillerStep, h, hdone]

/-- An `encode_out` that has its sample. -/
theorem encode_of_takeNext {left more : ℕ} {ch : Channel} (h : Filling s (left + 1) ch more)
    (hsrc : (s.chan ch).m_mode.sourcing) {x : α} {q : BoundedQueue α cap}
    (htake : (s.chan ch).takeNext = some (x, q)) :
    ∃ t, (machine α S out_transfers cap).step s .encode = some t ∧
      t.filler = .afterEncode left ch more ∧ t.user = .running ∧ t.cancelled = false ∧
      t.total < s.total := by
  have hdone : (s.chan ch).encode_sample 0 false = _ :=
    OutChannel.encode_sample_of_counted hsrc (.inl rfl) htake
  refine ⟨_, encode_step h.filler hdone, rfl, h.user, h.cancelled,
    total_lt_of_toCome_lt ch ?_ ?_⟩
  · simp only [State.toCome, Function.update_self, OutChannel.unused_of_takeNext htake]
    simp [OutChannel.unused]
  · intro ch' hch
    simp only [State.toCome, Function.update_of_ne hch]

/-- The write thread pushes one sample into an empty queue. -/
theorem push_one (S out_transfers : ℕ) (hcap : 0 < cap) {ch : Channel} {x : α} {xs : List α}
    (hrest : s.rest ch = x :: xs) (htake : (s.chan ch).takeNext = none) :
    ∃ t, (machine α S out_transfers cap).step s (.push ch 1) = some t ∧
      t.filler = s.filler ∧ t.user = s.user ∧ t.cancelled = s.cancelled ∧
      t.total = s.total ∧ (t.chan ch).m_mode = (s.chan ch).m_mode ∧
      ∃ q, (t.chan ch).takeNext = some (x, q) := by
  have hunused := OutChannel.takeNext_eq_none_iff.mp htake
  obtain ⟨hnext, hempty⟩ := List.append_eq_nil_iff.mp hunused
  have hnext' : (s.chan ch).m_next_output = none := by
    cases hn : (s.chan ch).m_next_output with
    | none => rfl
    | some y =>
        rw [hn] at hnext
        cases hnext
  obtain ⟨q, hq⟩ : ∃ q, (s.chan ch).m_out_samples_q.pushAll ((s.rest ch).take 1) = some q := by
    refine ⟨⟨[x], hcap⟩, BoundedQueue.pushAll_eq_some_iff.mpr ⟨?_, ?_⟩⟩
    · rw [hempty, hrest]
      exact hcap
    · rw [hempty, hrest]
      rfl
  have hitems : q.items = [x] := by
    rw [(BoundedQueue.pushAll_eq_some_iff.mp hq).2, hempty, hrest]
    rfl
  refine ⟨{ s with
      chan := Function.update s.chan ch { s.chan ch with m_out_samples_q := q }
      rest := Function.update s.rest ch ((s.rest ch).drop 1) }, ?_, rfl, rfl, rfl, ?_, ?_,
    BoundedQueue.empty, ?_⟩
  · simp only [machine]
    rw [if_pos (by rw [hrest]; simp), hq]
    rfl
  · have hcome : ∀ ch', ({ s with
        chan := Function.update s.chan ch { s.chan ch with m_out_samples_q := q }
        rest := Function.update s.rest ch ((s.rest ch).drop 1) } : State α cap).toCome ch' =
          s.toCome ch' := by
      intro ch'
      by_cases hch : ch' = ch
      · subst hch
        simp only [State.toCome, Function.update_self, OutChannel.unused, hitems, hempty, hrest,
          List.length_append, List.length_cons, List.length_nil, List.drop_succ_cons,
          List.drop_zero]
        omega
      · simp only [State.toCome, Function.update_of_ne hch]
    simp only [State.total, hcome]
  · simp only [Function.update_self]
  · simp only [Function.update_self, OutChannel.takeNext, hnext']
    exact BoundedQueue.pop_eq_some_iff.mpr hitems

/-- **One code.** The filling thread gets past the `encode_out` at hand, using up a sample
if the channel is a sourcing one, or it can be caught in a deadlock there. -/
theorem one_code (hcap : 0 < cap) {left more : ℕ} {ch : Channel}
    (h : Filling s (left + 1) ch more) :
    (∃ as t, (machine α S out_transfers cap).run s as = some t ∧ Deadlock t) ∨
      ∃ as t, (machine α S out_transfers cap).run s as = some t ∧
        t.filler = .afterEncode left ch more ∧ t.user = .running ∧ t.cancelled = false ∧
        t.total ≤ s.total ∧ ((s.chan ch).m_mode.sourcing → t.total < s.total) := by
  by_cases hsrc : (s.chan ch).m_mode.sourcing
  · cases htake : (s.chan ch).takeNext with
    | some r =>
        obtain ⟨t, hstep, hfiller, huser, hcanc, hlt⟩ := encode_of_takeNext h hsrc htake
        exact .inr ⟨[.encode], t, (Machine.run_singleton _ _ _).trans hstep, hfiller, huser,
          hcanc, Nat.le_of_lt hlt, fun _ => hlt⟩
    | none =>
        cases hrest : s.rest ch with
        | nil =>
            -- nothing is left: the user calls `end` while the thread waits
            refine .inl ⟨[.cancel], { s with user := .cancelling, cancelled := true }, ?_,
              left, ch, more, h.filler, ?_, hrest, rfl⟩
            · rw [Machine.run_singleton]
              simp only [machine, h.user]
            · exact OutChannel.encode_sample_of_unsupplied hsrc (.inl rfl) htake
        | cons x xs =>
            -- the write thread pushes one more sample first
            obtain ⟨u, hu, hfiller, huser, hcanc, htotal, hmode, q, hq⟩ :=
              push_one S out_transfers hcap hrest htake
            have hu' : Filling u (left + 1) ch more :=
              ⟨hfiller.trans h.filler, huser.trans h.user, hcanc.trans h.cancelled⟩
            obtain ⟨t, hstep, hfiller', huser', hcanc', hlt⟩ :=
              encode_of_takeNext hu' (by rw [hmode]; exact hsrc) hq
            rw [htotal] at hlt
            exact .inr ⟨[.push ch 1, .encode], t,
              (Machine.run_cons_eq_some_iff _).mpr
                ⟨u, hu, (Machine.run_singleton _ _ _).trans hstep⟩,
              hfiller', huser', hcanc', Nat.le_of_lt hlt, fun _ => hlt⟩
  · have hdone : (s.chan ch).encode_sample 0 false = _ :=
      OutChannel.encode_sample_of_floating hsrc
    refine .inr ⟨[.encode], { s with filler := .afterEncode left ch more }, ?_, rfl, h.user,
      h.cancelled, Nat.le_refl _, fun hs => absurd hs hsrc⟩
    rw [Machine.run_singleton, encode_step h.filler hdone, Function.update_eq_self]

/-- No run changes a mode. -/
theorem mode_of_run {as : List (Act α)}
    (hrun : (machine α S out_transfers cap).run s as = some t) (ch : Channel) :
    (t.chan ch).m_mode = (s.chan ch).m_mode :=
  Machine.invariant (fun _ _ _ hu hstep => (mode_of_step hstep ch).trans hu) rfl hrun

/-- After a transfer is submitted the filling thread gets to the first position of the next
one, if need be in the callback of the one it submitted. -/
theorem next_transfer {more : ℕ} (h : Filling s 0 .A more) :
    ∃ as t more', (machine α S out_transfers cap).run s as = some t ∧ Filling t S .A more' ∧
      t.total = s.total := by
  have hsubmit : (machine α S out_transfers cap).step s (.submit true) =
      some { s with in_flight := s.in_flight + 1, filler := .afterSubmit S more } := by
    simp only [machine, fillerStep, h.filler, if_true]
  cases more with
  | succ more =>
      exact ⟨[.submit true], _, more, (Machine.run_singleton _ _ _).trans hsubmit,
        ⟨rfl, h.user, h.cancelled⟩, rfl⟩
  | zero =>
      refine ⟨[.submit true, .out_completion], { s with filler := .filling S .A 0 }, 0, ?_,
        ⟨rfl, h.user, h.cancelled⟩, rfl⟩
      refine (Machine.run_cons_eq_some_iff _).mpr ⟨_, hsubmit, ?_⟩
      rw [Machine.run_singleton]
      simp only [machine, fillerStep, FillerPc.afterSubmit, h.cancelled]
      rfl

/-- **The samples run out.** From any state in which the filling thread is at work, with a
channel in a sourcing mode, a deadlock can be reached. -/
theorem reach_deadlock (hcap : 0 < cap) (hS : 0 < S) {left more : ℕ}
    (h : Filling s (left + 1) .A more) (hsrc : ∃ ch, (s.chan ch).m_mode.sourcing) :
    ∃ as t, (machine α S out_transfers cap).run s as = some t ∧ Deadlock t := by
  induction hn : s.total using Nat.strongRecOn generalizing s left more with
  | ind n ih =>
      subst hn
      rcases one_code (S := S) hcap h with hdead | ⟨as, u, hu, hfu, huser, hcanc, hle, hlt⟩
      · exact hdead
      have hB : Filling u (left + 1) .B more := ⟨hfu, huser, hcanc⟩
      rcases one_code (S := S) hcap hB with
        ⟨bs, t, ht, hdead⟩ | ⟨bs, v, hv, hfv, huser', hcanc', hle', hlt'⟩
      · exact ⟨as ++ bs, t, (Machine.run_append_eq_some_iff _).mpr ⟨u, hu, ht⟩, hdead⟩
      have hless : v.total < s.total := by
        obtain ⟨ch, hch⟩ := hsrc
        cases ch with
        | A => exact Nat.lt_of_le_of_lt hle' (hlt hch)
        | B =>
            rw [← mode_of_run hu .B] at hch
            exact Nat.lt_of_lt_of_le (hlt' hch) hle
      have huv := (Machine.run_append_eq_some_iff _).mpr ⟨u, hu, hv⟩
      have hsrc' : ∃ ch, (v.chan ch).m_mode.sourcing := by
        obtain ⟨ch, hch⟩ := hsrc
        exact ⟨ch, by rw [mode_of_run huv ch]; exact hch⟩
      cases left with
      | succ left =>
          obtain ⟨cs, t, ht, hdead⟩ := ih v.total hless ⟨hfv, huser', hcanc'⟩ hsrc' rfl
          exact ⟨as ++ bs ++ cs, t, (Machine.run_append_eq_some_iff _).mpr ⟨v, huv, ht⟩, hdead⟩
      | zero =>
          obtain ⟨cs, w, more', hw, hfill, htotal⟩ :=
            next_transfer (S := S) (s := v) ⟨hfv, huser', hcanc'⟩
          obtain ⟨S', rfl⟩ : ∃ S', S = S' + 1 := ⟨S - 1, by omega⟩
          obtain ⟨ds, t, ht, hdead⟩ := ih w.total (by omega) hfill
            (by
              obtain ⟨ch, hch⟩ := hsrc'
              exact ⟨ch, by rw [mode_of_run hw ch]; exact hch⟩) rfl
          exact ⟨as ++ bs ++ (cs ++ ds), t, (Machine.run_append_eq_some_iff _).mpr
            ⟨v, huv, (Machine.run_append_eq_some_iff _).mpr ⟨w, hw, ht⟩⟩, hdead⟩

/-- **Ending a continuous run.** Whatever data is buffered at the start, no deadlock can be
reached exactly when neither channel is in a sourcing mode. -/
theorem no_deadlock_iff (hcap : 0 < cap) (hS : 0 < S) (hout : 0 < out_transfers)
    (mode : Channel → Mode) (data : Channel → List α) :
    (∀ as t, (machine α S out_transfers cap).run (.init cap mode data) as = some t →
        ¬Deadlock t) ↔
      ∀ ch, ¬(mode ch).sourcing := by
  constructor
  · intro hnever ch hsrc
    obtain ⟨n, rfl⟩ : ∃ n, out_transfers = n + 1 := ⟨out_transfers - 1, by omega⟩
    obtain ⟨S', rfl⟩ : ∃ S', S = S' + 1 := ⟨S - 1, by omega⟩
    have hreach : ∃ as t, (machine α (S' + 1) (n + 1) cap).run
        { State.init cap mode data with filler := .filling (S' + 1) .A n } as = some t ∧
          Deadlock t :=
      reach_deadlock hcap hS ⟨rfl, rfl, rfl⟩ ⟨ch, hsrc⟩
    obtain ⟨as, t, ht, hdead⟩ := hreach
    exact hnever (.kickoff :: as) t ((Machine.run_cons_eq_some_iff _).mpr ⟨_, rfl, ht⟩) hdead
  · rintro hfloat as t hrun ⟨left, ch, more, -, hwaits, -, -⟩
    have hsrc := sourcing_of_waits hwaits
    rw [mode_of_run hrun ch] at hsrc
    exact hfloat ch hsrc

/-- With both channels floating and three samples buffered for each, those of channel A are
pushed before the session is cancelled; neither that nor any other run ends in a deadlock. -/
theorem no_deadlock_iff_floating :
    (∃ t, (machine ℕ 256 2 1000).run (.init 1000 (fun _ => .HI_Z) fun _ => [1, 2, 3])
        [.push .A 3, .kickoff, .cancel] = some t) ∧
      ∀ as t, (machine ℕ 256 2 1000).run
        (.init 1000 (fun _ => .HI_Z) fun _ => [1, 2, 3]) as = some t → ¬Deadlock t :=
  ⟨⟨_, rfl⟩,
    (no_deadlock_iff (by decide) (by decide) (by decide) _ _).mpr fun _ => by decide⟩

/-- **Three samples for channel A.** They are pushed and sent, with channel B floating; the
filling thread waits for a fourth one when the user calls `end`. -/
theorem three_samples_deadlock :
    ∃ t, (machine ℕ 256 2 1000).run
        (.init 1000 (fun ch => if ch = .A then .SVMI else .HI_Z)
          fun ch => if ch = .A then [1, 2, 3] else [])
        [.push .A 3, .kickoff, .encode, .encode, .encode, .encode, .encode, .encode,
          .cancel] = some t ∧ Deadlock t :=
  ⟨_, rfl, 252, .A, 1, rfl, rfl, rfl, rfl⟩

end Libsmu.ContinuousEnd
