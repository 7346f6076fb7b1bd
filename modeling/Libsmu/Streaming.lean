import Libsmu.Lib.Counter
import Libsmu.Lib.Machine
import Mathlib.Data.List.Basic

/-!
# One Device Streaming

What `M1000_Device::run` sets going once it has returned `0`: the kickoff thread, which
under `m_state` submits the IN transfers and then the OUT transfers, each loop up to the
first that is not submitted, and the completion callbacks on the USB thread, which take
`m_state` one at a time, resubmit their transfer and call `Session::completion` when
both `num_active` counters are zero.

The environment answers through the actions: whether `libusb_submit_transfer` accepts a
transfer, with which status a transfer completes and what its samples decode to, after
how many samples `encode_out` throws, how many samples the input queue takes before it
is full, and when the session is cancelled. A callback is three steps — entering,
resubmitting, leaving — so that a cancellation can fall inside it.

`libusb` calls back exactly once for every transfer it accepted, so a transfer handle
is in `in_flight` from its submission until its callback is entered.
-/

namespace Libsmu.Streaming

/-- What a run is started with: the requested sample count (`0` for a continuous run),
and what `configure` chose. -/
structure Config where
  m_sample_count : ℕ
  m_samples_per_transfer : ℕ
  /-- the size of `m_in_transfers` -/
  in_transfers : ℕ
  /-- the size of `m_out_transfers` -/
  out_transfers : ℕ
  /-- `m_sample_count` is a `uint64_t` -/
  sample_count_lt : m_sample_count < 2 ^ 64
  /-- `m_samples_per_transfer` is an `unsigned` -/
  samples_per_transfer_lt : m_samples_per_transfer < 2 ^ 32

/-- The status libusb completes a transfer with. -/
inductive Status
  | COMPLETED
  | ERROR
  | TIMED_OUT
  | CANCELLED
  | STALL
  | NO_DEVICE
  | OVERFLOW
  deriving DecidableEq

/-- How `handle_out_transfer` ends: the buffer is filled, or `encode_out` throws after
some samples. -/
inductive Fill
  | filled
  | threw (samples : ℕ)
  deriving DecidableEq

/-- One direction: its `num_active`, and a record of what libusb holds. -/
structure Pipe where
  num_active : ℤ
  /-- the transfers libusb has accepted and not called back yet -/
  in_flight : List ℕ
  /-- record: how many submissions of this run libusb has accepted -/
  submitted : ℕ
  deriving DecidableEq

/-- `libusb_submit_transfer` accepted `t`, then `num_active++`. -/
def Pipe.submit (p : Pipe) (t : ℕ) : Pipe where
  num_active := p.num_active + 1
  in_flight := t :: p.in_flight
  submitted := p.submitted + 1

/-- The callback of `t` is entered: `num_active--`. -/
def Pipe.retire (p : Pipe) (t : ℕ) : Pipe where
  num_active := p.num_active - 1
  in_flight := p.in_flight.erase t
  submitted := p.submitted

/-- Where the kickoff thread stands in `start_usb_transfers`. -/
inductive Kickoff
  /-- in the loop over `m_in_transfers`, with these transfers to come -/
  | ins (todo : List ℕ)
  /-- in the loop over `m_out_transfers`, with these transfers to come -/
  | outs (todo : List ℕ)
  /-- returned, `m_state` released -/
  | finished
  deriving DecidableEq

/-- Where the USB thread stands in `in_completion` or `out_completion`. -/
inductive Callback
  | outside
  /-- the IN transfer `t` is handled; the test of `cancelled()` comes next -/
  | resubmitIn (t : ℕ)
  /-- the OUT transfer `t` completed; the test of `cancelled()` comes next -/
  | resubmitOut (t : ℕ)
  /-- at the test of both `num_active` counters -/
  | leaving
  deriving DecidableEq

/-- The state of one device during one run. -/
structure State (α : Type*) where
  kickoff : Kickoff
  callback : Callback
  ins : Pipe
  outs : Pipe
  m_requested_sampleno : ℕ
  m_in_sampleno : ℕ
  m_out_sampleno : ℕ
  /-- whether `Session::m_cancellation` is nonzero -/
  cancelled : Bool
  /-- record: the samples pushed into `m_in_samples_q` in this run -/
  queued : List α
  /-- record: the IN stream of this run, all samples of all completed transfers -/
  received : List α
  /-- record: how often `Session::completion` has been called -/
  completions : ℕ
  deriving DecidableEq

variable {α : Type*}

/-- The state `run` leaves behind: counters reset, nothing submitted yet, and the
kickoff thread at its first loop. -/
def State.init (c : Config) : State α where
  kickoff := .ins (List.range c.in_transfers)
  callback := .outside
  ins := ⟨0, [], 0⟩
  outs := ⟨0, [], 0⟩
  m_requested_sampleno := 0
  m_in_sampleno := 0
  m_out_sampleno := 0
  cancelled := false
  queued := []
  received := []
  completions := 0

/-- `Session::handle_error` for a status other than a cancellation: the session is
cancelled from here on. -/
def State.handle_error (s : State α) : State α := { s with cancelled := true }

/-- The test in front of both submissions: the run wants more than `sampleno` samples. -/
def Config.wants (c : Config) (sampleno : ℕ) : Prop :=
  c.m_sample_count = 0 ∨ sampleno < c.m_sample_count

instance (c : Config) (sampleno : ℕ) : Decidable (c.wants sampleno) :=
  inferInstanceAs (Decidable (_ ∨ _))

/-- `submit_in_transfer`, and whether it returned `0`. A transfer that libusb refuses
stays in the collection: the loop of `Transfers::failed` runs only while its index is
zero, so it removes nothing from a collection with a member. -/
def submit_in_transfer (c : Config) (s : State α) (t : ℕ) (accepted : Bool) :
    State α × Bool :=
  if c.wants s.m_requested_sampleno then
    if accepted then
      ({ s with
          ins := s.ins.submit t
          m_requested_sampleno :=
            Counter.add 64 s.m_requested_sampleno c.m_samples_per_transfer }, true)
    else (s.handle_error, false)
  else (s, false)

/-- The second half of `submit_out_transfer`, once the buffer is to be sent. -/
def send_out_transfer (s : State α) (t : ℕ) (accepted : Bool) : State α × Bool :=
  if accepted then ({ s with outs := s.outs.submit t }, true)
  else (s.handle_error, false)

/-- `submit_out_transfer`, and whether it returned `0`. An exception of `encode_out` is
stored and ends it, unless it came after the last requested sample. -/
def submit_out_transfer (c : Config) (s : State α) (t : ℕ) (fill : Fill)
    (accepted : Bool) : State α × Bool :=
  if c.wants s.m_out_sampleno then
    match fill with
    | .filled =>
        send_out_transfer
          { s with
            m_out_sampleno := Counter.add 64 s.m_out_sampleno c.m_samples_per_transfer }
          t accepted
    | .threw k =>
        if c.wants (Counter.add 64 s.m_out_sampleno k) then
          ({ s with m_out_sampleno := Counter.add 64 s.m_out_sampleno k }, false)
        else
          send_out_transfer { s with m_out_sampleno := Counter.add 64 s.m_out_sampleno k }
            t accepted
  else (s, false)

/-- `handle_in_transfer` on the decoded samples of one transfer, with room for `room`
samples in the queue: the new `m_in_sampleno` and the samples pushed. A push into the
full queue throws and leaves the loop. -/
def handle_in_transfer (m_sample_count : ℕ) : List α → ℕ → ℕ → ℕ × List α
  | [], _, sampleno => (sampleno, [])
  | x :: xs, room, sampleno =>
      let sampleno := Counter.add 64 sampleno 1
      if m_sample_count = 0 ∨ sampleno ≤ m_sample_count then
        match room with
        | 0 => (sampleno, [])
        | room + 1 =>
            let rest := handle_in_transfer m_sample_count xs room sampleno
            (rest.1, x :: rest.2)
      else handle_in_transfer m_sample_count xs room sampleno

/-- The actions, each with the environment's answer. -/
inductive Act (α : Type*)
  /-- the kickoff thread takes the next IN transfer -/
  | kickoffIn (accepted : Bool)
  /-- the kickoff thread takes the next OUT transfer -/
  | kickoffOut (fill : Fill) (accepted : Bool)
  /-- the kickoff thread finds its loop at the end -/
  | kickoffNext
  /-- the callback of the IN transfer `t` is entered -/
  | in_completion (t : ℕ) (status : Status) (data : List α) (room : ℕ)
  /-- the callback of the OUT transfer `t` is entered -/
  | out_completion (t : ℕ) (status : Status)
  /-- the running callback makes its next step -/
  | usb (fill : Fill) (accepted : Bool)
  /-- `Session::cancel`, by the user or for another device -/
  | cancel

/-- An exception comes before the buffer is full. -/
def Fill.legal (c : Config) : Fill → Prop
  | .filled => True
  | .threw k => k < c.m_samples_per_transfer

instance (c : Config) (fill : Fill) : Decidable (fill.legal c) :=
  match fill with
  | .filled => isTrue trivial
  | .threw _ => inferInstanceAs (Decidable (_ < _))

/-- One iteration of a loop of the kickoff thread. -/
def kickoffStep (c : Config) (s : State α) : Act α → Option (State α)
  | .kickoffIn accepted =>
      match s.kickoff with
      | .ins (t :: todo) =>
          let r := submit_in_transfer c s t accepted
          some { r.1 with
            kickoff := if r.2 then .ins todo else .outs (List.range c.out_transfers) }
      | _ => none
  | .kickoffOut fill accepted =>
      match s.kickoff with
      | .outs (t :: todo) =>
          let r := submit_out_transfer c s t fill accepted
          some { r.1 with kickoff := if r.2 then .outs todo else .finished }
      | _ => none
  | .kickoffNext =>
      match s.kickoff with
      | .ins [] => some { s with kickoff := .outs (List.range c.out_transfers) }
      | .outs [] => some { s with kickoff := .finished }
      | _ => none
  | _ => none

/-- Entering a callback: it needs `m_state`, so neither the kickoff thread nor another
callback holds it. -/
def enterStep (c : Config) (s : State α) : Act α → Option (State α)
  | .in_completion t status data room =>
      if s.kickoff = .finished ∧ s.callback = .outside ∧ t ∈ s.ins.in_flight then
        let s := { s with ins := s.ins.retire t }
        if status = .COMPLETED then
          let r := handle_in_transfer c.m_sample_count data room s.m_in_sampleno
          some { s with
            m_in_sampleno := r.1
            queued := s.queued ++ r.2
            received := s.received ++ data
            callback := .resubmitIn t }
        else if status = .CANCELLED then some { s with callback := .leaving }
        else some { s.handle_error with callback := .leaving }
      else none
  | .out_completion t status =>
      if s.kickoff = .finished ∧ s.callback = .outside ∧ t ∈ s.outs.in_flight then
        let s := { s with outs := s.outs.retire t }
        if status = .COMPLETED then some { s with callback := .resubmitOut t }
        else if status = .CANCELLED then some { s with callback := .leaving }
        else some { s.handle_error with callback := .leaving }
      else none
  | _ => none

/-- The rest of a callback: resubmit unless cancelled, then the completion test. -/
def callbackStep (c : Config) (s : State α) (fill : Fill) (accepted : Bool) :
    Option (State α) :=
  match s.callback with
  | .outside => none
  | .resubmitIn t =>
      let r := if s.cancelled then s else (submit_in_transfer c s t accepted).1
      some { r with callback := .leaving }
  | .resubmitOut t =>
      let r := if s.cancelled then s else (submit_out_transfer c s t fill accepted).1
      some { r with callback := .leaving }
  | .leaving =>
      if s.outs.num_active = 0 ∧ s.ins.num_active = 0 then
        some { s with completions := s.completions + 1, callback := .outside }
      else some { s with callback := .outside }

/-- The device as a machine. -/
def machine (α : Type*) (c : Config) : Machine (State α) (Act α) where
  step s
    | .usb fill accepted => if fill.legal c then callbackStep c s fill accepted else none
    | .cancel => some { s with cancelled := true }
    | .kickoffOut fill accepted =>
        if fill.legal c then kickoffStep c s (.kickoffOut fill accepted) else none
    | .kickoffIn accepted => kickoffStep c s (.kickoffIn accepted)
    | .kickoffNext => kickoffStep c s .kickoffNext
    | .in_completion t status data room => enterStep c s (.in_completion t status data room)
    | .out_completion t status => enterStep c s (.out_completion t status)

/-- The kickoff has finished, no transfer is in flight, and no callback is running. -/
def State.Quiescent (s : State α) : Prop :=
  s.kickoff = .finished ∧ s.callback = .outside ∧
    s.ins.in_flight = [] ∧ s.outs.in_flight = []

instance (s : State α) : Decidable s.Quiescent :=
  inferInstanceAs (Decidable (_ ∧ _ ∧ _ ∧ _))

end Libsmu.Streaming
