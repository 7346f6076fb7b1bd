import Libsmu.Lib.BoundedQueue
import Libsmu.Lib.Counter
import Libsmu.Lib.Machine
import Mathlib.Data.List.TakeDrop
import Mathlib.Tactic.Ring

/-!
# The Input Queue and its Counter

`M1000_Device` hands decoded samples from the USB thread to the reading thread through
two objects that are updated in separate steps: the queue `m_in_samples_q` and the
counter `m_in_samples_avail`. This module models both threads at the grain of their
single accesses.

* The USB thread runs `in_completion` under `m_state`: for every decoded sample it
  advances `m_in_sampleno`, pushes the sample while the run still wants it (a push into
  a full queue throws and ends the transfer), and then increments the counter.
* The reading thread runs `read` without `skipsamples`, with both loads of the counter
  (the comparison and the assignment are two separate loads), each pop and each
  decrement a step of its own, and `flush`, which empties the queue and zeroes the
  counter under `m_state`.

The samples are whatever `handle_in_transfer` decodes the bytes to; `default` stands
for the value-initialised local `sample` of `read`.

## Main results

* `Inv.step`: every step of either thread keeps the accounting invariant.
* `fidelity`: in every state of every schedule the counter is at most one above the
  queue (and then `read` holds the sample it has not counted off yet), it never wraps
  below zero, every pop succeeds, and what `read` delivered followed by what is queued
  is the decoded stream since the last flush, cut to the requested count, as long as the
  64 bits of `m_in_sampleno` are enough for it.
* `avail_exceeds_queue`: between the pop and the decrement the counter does exceed the
  queue, and with a queue of `2 ^ 32 - 1` samples it does wrap; and behind `2 ^ 64` samples
  a run pushes one that it does not ask for.
-/

namespace Libsmu.InputFifo

variable {α : Type*} {m_queue_size : ℕ}

/-- Where the USB thread stands in `in_completion`. -/
inductive UsbPc (α : Type*)
  /-- not inside `in_completion` -/
  | outside
  /-- at the head of the sample loop; the list holds the samples still to be handled -/
  | decoding (rest : List α)
  /-- a sample is pushed and `m_in_samples_avail++` comes next -/
  | counting (rest : List α)
  deriving DecidableEq

/-- Where the reading thread stands in `read`. `sample` is the local of that name. -/
inductive ReaderPc (α : Type*)
  /-- not inside `read` -/
  | idle
  /-- at `remaining_samples > m_in_samples_avail` -/
  | compare (remaining_samples : ℕ) (sample : α)
  /-- the comparison held: at `samples = m_in_samples_avail` -/
  | load (remaining_samples : ℕ) (sample : α)
  /-- at the head of the copy loop -/
  | copy (remaining_samples samples i : ℕ) (sample : α)
  /-- `sample` is popped and `m_in_samples_avail--` comes next -/
  | popped (remaining_samples samples i : ℕ) (sample : α)
  /-- a chunk is copied and more is wanted -/
  | again (remaining_samples : ℕ) (sample : α)
  deriving DecidableEq

/-- The sample `read` has popped and not yet put into its buffer. -/
def ReaderPc.hand : ReaderPc α → List α
  | .popped _ _ _ sample => [sample]
  | _ => []

/-- How many iterations the copy loop still makes, counting one already popped. -/
def ReaderPc.owed : ReaderPc α → ℕ
  | .copy _ samples i _ => samples - i
  | .popped _ samples i _ => samples - i
  | _ => 0

/-- How many pushed samples are not counted yet. -/
def UsbPc.uncounted : UsbPc α → ℕ
  | .counting _ => 1
  | _ => 0

/-- The shared objects, both threads' positions, and a record of the run. -/
structure State (α : Type*) (m_queue_size : ℕ) where
  m_in_samples_q : BoundedQueue α m_queue_size
  m_in_samples_avail : ℕ
  m_in_sampleno : ℕ
  usb : UsbPc α
  reader : ReaderPc α
  /-- record: every sample decoded in this run so far -/
  decoded : List α
  /-- record: how many samples were decoded when `flush` was last called -/
  flushedAt : ℕ
  /-- record: the samples put into the buffers of `read` since the last flush -/
  delivered : List α
  /-- record: the exception 'data sample dropped' was thrown -/
  dropped : Bool
  deriving DecidableEq

/-- The state at the start of a run: both threads outside, the queue empty. -/
def State.init : State α m_queue_size where
  m_in_samples_q := .empty
  m_in_samples_avail := 0
  m_in_sampleno := 0
  usb := .outside
  reader := .idle
  decoded := []
  flushedAt := 0
  delivered := []
  dropped := false

/-- The actions of the two threads. -/
inductive Act (α : Type*)
  /-- the USB thread enters `in_completion` with a transfer that decodes to `data` -/
  | in_completion (data : List α)
  /-- the next step of the USB thread -/
  | usb
  /-- the reading thread calls `read` for a number of samples -/
  | read (samples : ℕ)
  /-- the next step of the reading thread -/
  | reader
  /-- `read` returns early: out of time, or a stored exception is rethrown -/
  | giveUp
  /-- the reading thread calls `flush` for the read queue -/
  | flush

/-- One step of the sample loop of `handle_in_transfer`, in a run of `m_sample_count`
samples (`0` for a continuous run). -/
def usbStep (m_sample_count : ℕ) (s : State α m_queue_size) :
    Option (State α m_queue_size) :=
  match s.usb with
  | .outside => none
  | .decoding [] => some { s with usb := .outside }
  | .decoding (x :: rest) =>
      if m_sample_count = 0 ∨ Counter.add 64 s.m_in_sampleno 1 ≤ m_sample_count then
        match s.m_in_samples_q.push x with
        | some q =>
            some { s with
              m_in_sampleno := Counter.add 64 s.m_in_sampleno 1
              decoded := s.decoded ++ [x]
              m_in_samples_q := q
              usb := .counting rest }
        | none =>
            -- 'data sample dropped' leaves the loop; `in_completion` stores it
            some { s with
              m_in_sampleno := Counter.add 64 s.m_in_sampleno 1
              decoded := s.decoded ++ [x]
              dropped := true
              usb := .outside }
      else
        some { s with
          m_in_sampleno := Counter.add 64 s.m_in_sampleno 1
          decoded := s.decoded ++ [x]
          usb := .decoding rest }
  | .counting rest =>
      some { s with
        m_in_samples_avail := Counter.add 32 s.m_in_samples_avail 1
        usb := .decoding rest }

/-- One step of `read`. -/
def readerStep (s : State α m_queue_size) : Option (State α m_queue_size) :=
  match s.reader with
  | .idle => none
  | .compare remaining sample =>
      if s.m_in_samples_avail < remaining then
        some { s with reader := .load remaining sample }
      else some { s with reader := .copy remaining remaining 0 sample }
  | .load remaining sample =>
      some { s with reader := .copy remaining s.m_in_samples_avail 0 sample }
  | .copy remaining samples i sample =>
      if i < samples then
        match s.m_in_samples_q.pop with
        | some (x, q) =>
            some { s with m_in_samples_q := q, reader := .popped remaining samples i x }
        | none =>
            -- a failed pop leaves `sample` as it was
            some { s with reader := .popped remaining samples i sample }
      else
        -- `remaining_samples -= samples` is unsigned
        let left := Counter.add 32 remaining (2 ^ 32 - samples)
        if left = 0 then some { s with reader := .idle }
        else some { s with reader := .again left sample }
  | .popped remaining samples i sample =>
      some { s with
        m_in_samples_avail := Counter.pred 32 s.m_in_samples_avail
        delivered := s.delivered ++ [sample]
        reader := .copy remaining samples (i + 1) sample }
  | .again remaining sample => some { s with reader := .compare remaining sample }

/-- Both threads as one machine. `m_state` is held by the USB thread from entering
`in_completion` until it leaves; `flush` needs it, `read` does not. -/
def machine (α : Type*) [Inhabited α] (m_queue_size m_sample_count : ℕ) :
    Machine (State α m_queue_size) (Act α) where
  step s
    | .in_completion data =>
        match s.usb with
        | .outside => some { s with usb := .decoding data }
        | _ => none
    | .usb => usbStep m_sample_count s
    | .read samples =>
        match s.reader with
        | .idle =>
            -- `uint32_t remaining_samples = samples`, then the test of the while loop
            if samples % 2 ^ 32 = 0 then some s
            else some { s with reader := .compare (samples % 2 ^ 32) default }
        | _ => none
    | .reader => readerStep s
    | .giveUp =>
        match s.reader with
        | .again _ _ => some { s with reader := .idle }
        | _ => none
    | .flush =>
        match s.usb, s.reader with
        | .outside, .idle =>
            some { s with
              m_in_samples_q := .empty
              m_in_samples_avail := 0
              flushedAt := s.decoded.length
              delivered := [] }
        | _, _ => none

/-- The part of the IN stream a run of `m_sample_count` samples asks for. -/
def cut (m_sample_count : ℕ) (stream : List α) : List α :=
  if m_sample_count = 0 then stream else stream.take m_sample_count

/-- `m_in_sampleno` has not wrapped yet, or the run has no end to find with it. -/
def Unwrapped (m_sample_count : ℕ) (stream : List α) : Prop :=
  m_sample_count = 0 ∨ stream.length < 2 ^ 64

/-! ### The accounting invariant -/

/-- The accounting between the counter, the queue and the positions of both threads. -/
structure Inv (m_sample_count : ℕ) (s : State α m_queue_size) : Prop where
  count : s.m_in_samples_avail + s.usb.uncounted =
    s.m_in_samples_q.items.length + s.reader.hand.length
  owed : s.reader.owed ≤ s.m_in_samples_avail
  hand : s.reader.hand.length ≤ s.reader.owed
  sampleno : s.m_in_sampleno = s.decoded.length % 2 ^ 64
  flushed : s.flushedAt ≤ s.decoded.length
  stream : s.dropped = false → Unwrapped m_sample_count s.decoded →
    s.delivered ++ s.reader.hand ++ s.m_in_samples_q.items =
      (cut m_sample_count s.decoded).drop s.flushedAt

/-- A sample the run wants extends the expected stream. -/
theorem cut_concat_of_wanted {m_sample_count n : ℕ} {stream : List α} {x : α}
    (hw : m_sample_count = 0 ∨ stream.length + 1 ≤ m_sample_count)
    (hn : n ≤ stream.length) :
    (cut m_sample_count (stream ++ [x])).drop n =
      (cut m_sample_count stream).drop n ++ [x] := by
  simp only [cut]
  split
  · rw [List.drop_append_of_le_length hn]
  · rename_i h0
    have hle : stream.length + 1 ≤ m_sample_count := hw.resolve_left h0
    have htake : (stream ++ [x]).take m_sample_count = stream ++ [x] :=
      List.take_of_length_le (by rw [List.length_append, List.length_singleton]; exact hle)
    have htake' : stream.take m_sample_count = stream :=
      List.take_of_length_le (Nat.le_of_succ_le hle)
    rw [htake, htake', List.drop_append_of_le_length hn]

/-- A sample beyond the requested count leaves the expected stream as it is. -/
theorem cut_concat_of_not_wanted {m_sample_count : ℕ} {stream : List α} {x : α}
    (hw : ¬(m_sample_count = 0 ∨ stream.length + 1 ≤ m_sample_count)) :
    cut m_sample_count (stream ++ [x]) = cut m_sample_count stream := by
  obtain ⟨h0, hle⟩ := not_or.mp hw
  simp only [cut]
  rw [if_neg h0, if_neg h0]
  exact List.take_append_of_le_length (by omega)

/-- The number of the next sample, while it has not wrapped. -/
theorem Unwrapped.wanted_iff {m_sample_count : ℕ} {stream : List α} {x : α}
    (h : Unwrapped m_sample_count (stream ++ [x])) :
    (m_sample_count = 0 ∨ Counter.add 64 (stream.length % 2 ^ 64) 1 ≤ m_sample_count) ↔
      (m_sample_count = 0 ∨ stream.length + 1 ≤ m_sample_count) := by
  refine or_congr_right' fun h0 => ?_
  have hlt : stream.length + 1 < 2 ^ 64 := by
    have hlen := h.resolve_left h0
    rwa [List.length_append, List.length_singleton] at hlen
  rw [Nat.mod_eq_of_lt (Nat.lt_of_succ_lt hlt), Counter.add_of_lt hlt]

/-- A shorter stream does not wrap, either. -/
theorem Unwrapped.of_concat {m_sample_count : ℕ} {stream : List α} {x : α}
    (h : Unwrapped m_sample_count (stream ++ [x])) : Unwrapped m_sample_count stream := by
  refine h.imp_right fun hlt => ?_
  rw [List.length_append] at hlt
  exact Nat.lt_of_le_of_lt (Nat.le_add_right _ _) hlt

/-- Nothing was decoded yet. -/
theorem Inv.init (m_sample_count : ℕ) :
    Inv m_sample_count (State.init : State α m_queue_size) where
  count := rfl
  owed := Nat.zero_le _
  hand := Nat.zero_le _
  sampleno := rfl
  flushed := Nat.zero_le _
  stream := by
    intro _ _
    rw [cut]
    split <;> simp [State.init, ReaderPc.hand]

/-- Every step of the USB thread keeps the invariant, as long as the counter is wide
enough for a full queue and the one sample `read` may hold. -/
theorem Inv.usbStep {m_sample_count : ℕ} {s t : State α m_queue_size}
    (hcap : m_queue_size + 1 < 2 ^ 32) (h : Inv m_sample_count s)
    (hstep : usbStep m_sample_count s = some t) : Inv m_sample_count t := by
  obtain ⟨q, avail, sampleno, usb, reader, decoded, flushedAt, delivered, dropped⟩ := s
  obtain ⟨hcount, howed, hhand, hsampleno, hflushed, hstream⟩ := h
  simp only at hcount howed hhand hsampleno hflushed hstream
  have hlen := q.length_le
  cases usb with
  | outside => simp only [InputFifo.usbStep, reduceCtorEq] at hstep
  | counting rest =>
      simp only [InputFifo.usbStep, Option.some.injEq] at hstep
      subst hstep
      have hadd : Counter.add 32 avail 1 = avail + 1 := by
        refine Counter.add_of_lt ?_
        have hown : reader.hand.length ≤ 1 := by cases reader <;> simp [ReaderPc.hand]
        simp only [UsbPc.uncounted] at hcount
        omega
      simp only [UsbPc.uncounted] at hcount
      constructor <;> simp only [hadd, UsbPc.uncounted]
      · omega
      · omega
      · exact hhand
      · exact hsampleno
      · exact hflushed
      · exact hstream
  | decoding rest =>
      cases rest with
      | nil =>
          simp only [InputFifo.usbStep, Option.some.injEq] at hstep
          subst hstep
          exact ⟨hcount, howed, hhand, hsampleno, hflushed, hstream⟩
      | cons x rest =>
          simp only [InputFifo.usbStep] at hstep
          have hlen' : (decoded ++ [x]).length = decoded.length + 1 := by simp
          have hnext : Counter.add 64 sampleno 1 = (decoded ++ [x]).length % 2 ^ 64 := by
            rw [hlen', hsampleno, Counter.add, Nat.mod_add_mod]
          by_cases hw : m_sample_count = 0 ∨ Counter.add 64 sampleno 1 ≤ m_sample_count
          · rw [if_pos hw] at hstep
            cases hpush : q.push x with
            | none =>
                simp only [hpush, Option.some.injEq] at hstep
                subst hstep
                exact ⟨hcount, howed, hhand, hnext,
                  by simp only [hlen']; omega, fun hd => by simp at hd⟩
            | some q' =>
                simp only [hpush, Option.some.injEq] at hstep
                subst hstep
                obtain ⟨-, hitems⟩ := BoundedQueue.push_eq_some_iff.mp hpush
                simp only [UsbPc.uncounted] at hcount
                refine ⟨?_, howed, hhand, hnext,
                  by simp only [hlen']; omega, ?_⟩
                · simp only [UsbPc.uncounted, hitems, List.length_append,
                    List.length_singleton]
                  omega
                · intro hd hlt
                  rw [hsampleno, hlt.wanted_iff] at hw
                  simp only [hitems, cut_concat_of_wanted hw hflushed]
                  rw [← hstream hd hlt.of_concat, List.append_assoc _ q.items]
          · rw [if_neg hw] at hstep
            simp only [Option.some.injEq] at hstep
            subst hstep
            refine ⟨hcount, howed, hhand, hnext,
              by simp only [hlen']; omega, ?_⟩
            intro hd hlt
            rw [hsampleno, hlt.wanted_iff] at hw
            simp only [cut_concat_of_not_wanted hw]
            exact hstream hd hlt.of_concat

/-- Every step of `read` keeps the invariant. -/
theorem Inv.readerStep {m_sample_count : ℕ} {s t : State α m_queue_size}
    (hcap : m_queue_size + 1 < 2 ^ 32) (h : Inv m_sample_count s)
    (hstep : readerStep s = some t) : Inv m_sample_count t := by
  obtain ⟨q, avail, sampleno, usb, reader, decoded, flushedAt, delivered, dropped⟩ := s
  obtain ⟨hcount, howed, hhand, hsampleno, hflushed, hstream⟩ := h
  simp only at hcount howed hhand hsampleno hflushed hstream
  have hlen := q.length_le
  cases reader with
  | idle => simp only [InputFifo.readerStep, reduceCtorEq] at hstep
  | compare remaining sample =>
      simp only [InputFifo.readerStep] at hstep
      split at hstep
      · obtain rfl := Option.some.inj hstep
        exact ⟨hcount, howed, hhand, hsampleno, hflushed, hstream⟩
      · rename_i hle
        obtain rfl := Option.some.inj hstep
        refine ⟨hcount, ?_, ?_, hsampleno, hflushed, hstream⟩
        · simp only [ReaderPc.owed]
          omega
        · simp only [ReaderPc.hand, List.length_nil, Nat.zero_le]
  | load remaining sample =>
      simp only [InputFifo.readerStep, Option.some.injEq] at hstep
      subst hstep
      refine ⟨hcount, ?_, ?_, hsampleno, hflushed, hstream⟩
      · simp only [ReaderPc.owed, Nat.sub_zero, le_refl]
      · simp only [ReaderPc.hand, List.length_nil, Nat.zero_le]
  | copy remaining samples i sample =>
      simp only [InputFifo.readerStep] at hstep
      simp only [ReaderPc.owed] at howed
      simp only [ReaderPc.hand, List.length_nil, Nat.add_zero] at hcount
      by_cases hi : i < samples
      · rw [if_pos hi] at hstep
        have huncounted : usb.uncounted ≤ 1 := by cases usb <;> simp [UsbPc.uncounted]
        cases hpop : q.pop with
        | none =>
            -- the counter promises a sample that is in the queue
            have hnil := BoundedQueue.pop_eq_none_iff.mp hpop
            rw [hnil, List.length_nil] at hcount
            omega
        | some p =>
            obtain ⟨x, q'⟩ := p
            simp only [hpop, Option.some.injEq] at hstep
            subst hstep
            have hitems := BoundedQueue.pop_eq_some_iff.mp hpop
            refine ⟨?_, ?_, ?_, hsampleno, hflushed, ?_⟩
            · simp only [ReaderPc.hand, List.length_singleton]
              rw [hcount, hitems, List.length_cons]
            · simpa only [ReaderPc.owed] using howed
            · simp only [ReaderPc.hand, ReaderPc.owed, List.length_singleton]
              omega
            · intro hd hlt
              simp only [ReaderPc.hand]
              rw [← hstream hd hlt, hitems]
              simp [ReaderPc.hand]
      · rw [if_neg hi] at hstep
        split at hstep
        · obtain rfl := Option.some.inj hstep
          exact ⟨hcount, Nat.zero_le _, Nat.zero_le _, hsampleno, hflushed, hstream⟩
        · obtain rfl := Option.some.inj hstep
          exact ⟨hcount, Nat.zero_le _, Nat.zero_le _, hsampleno, hflushed, hstream⟩
  | popped remaining samples i sample =>
      simp only [InputFifo.readerStep, Option.some.injEq] at hstep
      subst hstep
      simp only [ReaderPc.hand, ReaderPc.owed, List.length_singleton] at hcount howed hhand
      have hpred : Counter.pred 32 avail = avail - 1 :=
        Counter.pred_of_pos (by omega) (by omega)
      refine ⟨?_, ?_, ?_, hsampleno, hflushed, ?_⟩
      · simp only [ReaderPc.hand, List.length_nil, hpred]
        omega
      · simp only [ReaderPc.owed, hpred]
        omega
      · simp only [ReaderPc.hand, List.length_nil, Nat.zero_le]
      · intro hd hlt
        simp only [ReaderPc.hand, List.append_nil]
        exact hstream hd hlt
  | again remaining sample =>
      simp only [InputFifo.readerStep, Option.some.injEq] at hstep
      subst hstep
      exact ⟨hcount, howed, hhand, hsampleno, hflushed, hstream⟩

/-- **The step lemma**: every action of either thread keeps the invariant. -/
theorem Inv.step [Inhabited α] {m_sample_count : ℕ} {s t : State α m_queue_size}
    {a : Act α} (hcap : m_queue_size + 1 < 2 ^ 32) (h : Inv m_sample_count s)
    (hstep : (machine α m_queue_size m_sample_count).step s a = some t) :
    Inv m_sample_count t := by
  cases a with
  | usb => exact h.usbStep hcap hstep
  | reader => exact h.readerStep hcap hstep
  | in_completion data =>
      simp only [machine] at hstep
      split at hstep
      · rename_i husb
        obtain rfl := Option.some.inj hstep
        have hcount := h.count
        rw [husb] at hcount
        exact ⟨hcount, h.owed, h.hand, h.sampleno, h.flushed, h.stream⟩
      · exact absurd hstep (by simp)
  | read samples =>
      simp only [machine] at hstep
      split at hstep
      · rename_i hreader
        have hcount := h.count
        have hstream := h.stream
        rw [hreader] at hcount hstream
        split at hstep
        · obtain rfl := Option.some.inj hstep
          exact h
        · obtain rfl := Option.some.inj hstep
          exact ⟨hcount, Nat.zero_le _, Nat.zero_le _, h.sampleno, h.flushed, hstream⟩
      · exact absurd hstep (by simp)
  | giveUp =>
      simp only [machine] at hstep
      split at hstep
      · rename_i hreader
        obtain rfl := Option.some.inj hstep
        have hcount := h.count
        have hstream := h.stream
        rw [hreader] at hcount hstream
        exact ⟨hcount, Nat.zero_le _, Nat.zero_le _, h.sampleno, h.flushed, hstream⟩
      · exact absurd hstep (by simp)
  | flush =>
      simp only [machine] at hstep
      split at hstep
      · rename_i husb hreader
        obtain rfl := Option.some.inj hstep
        refine ⟨?_, ?_, ?_, h.sampleno, le_refl _, ?_⟩
        · simp only [husb, hreader, UsbPc.uncounted, ReaderPc.hand,
            BoundedQueue.items_empty, List.length_nil]
        · simp only [hreader, ReaderPc.owed, le_refl]
        · simp only [hreader, ReaderPc.hand, List.length_nil, Nat.zero_le]
        · intro _ _
          have hshort : (cut m_sample_count s.decoded).length ≤ s.decoded.length := by
            rw [cut]
            split
            · exact le_refl _
            · exact List.length_take_le' _ _
          simp only [hreader, ReaderPc.hand, BoundedQueue.items_empty, List.append_nil]
          exact (List.drop_eq_nil_of_le hshort).symm
      · exact absurd hstep (by simp)

/-! ### Fidelity -/

/-- What a reader of the input queue relies on, in one state. -/
structure Fidelity (m_sample_count : ℕ) (s : State α m_queue_size) : Prop where
  /-- the counter exceeds the queue at most by the sample `read` has popped and not
  counted off yet -/
  avail_le : s.m_in_samples_avail ≤
    s.m_in_samples_q.items.length + s.reader.hand.length
  /-- that is at most one sample -/
  hand_le : s.reader.hand.length ≤ 1
  /-- a decrement never wraps below zero -/
  no_wrap : s.reader.hand ≠ [] → 0 < s.m_in_samples_avail
  /-- a pop of `read` succeeds -/
  pop_succeeds : ∀ remaining samples i sample,
    s.reader = .copy remaining samples i sample → i < samples →
      s.m_in_samples_q.pop ≠ none
  /-- nothing is lost, duplicated or reordered -/
  stream : s.dropped = false → Unwrapped m_sample_count s.decoded →
    s.delivered ++ s.reader.hand ++ s.m_in_samples_q.items =
      (cut m_sample_count s.decoded).drop s.flushedAt

/-- The invariant says what the user sees. -/
theorem Inv.faithful {m_sample_count : ℕ} {s : State α m_queue_size}
    (h : Inv m_sample_count s) : Fidelity m_sample_count s where
  avail_le := by
    have hcount := h.count
    omega
  hand_le := by cases s.reader <;> simp [ReaderPc.hand]
  no_wrap hne := by
    have hpos := List.length_pos_iff.mpr hne
    exact lt_of_lt_of_le hpos (le_trans h.hand h.owed)
  pop_succeeds remaining samples i sample hreader hi hpop := by
    have hcount := h.count
    have howed := h.owed
    rw [hreader] at hcount howed
    rw [BoundedQueue.pop_eq_none_iff.mp hpop] at hcount
    simp only [ReaderPc.hand, ReaderPc.owed, List.length_nil] at hcount howed
    omega
  stream := h.stream

/-- **Input FIFO fidelity.** In every state that any schedule of the two threads
reaches from the start of a run, for every queue size below `2 ^ 32 - 1`. -/
theorem fidelity [Inhabited α] {m_sample_count : ℕ} {as : List (Act α)}
    {s : State α m_queue_size} (hcap : m_queue_size + 1 < 2 ^ 32)
    (hrun : (machine α m_queue_size m_sample_count).run .init as = some s) :
    Fidelity m_sample_count s :=
  (Machine.invariant (fun _ _ _ hs hstep => Inv.step hcap hs hstep)
    (Inv.init m_sample_count) hrun).faithful

/-- A run of two samples into a queue of the default size: a transfer of three samples
is handled, `read` takes one sample, and one is left. -/
theorem fidelity_two : ∃ s : State ℕ 100000,
    (machine ℕ 100000 2).run .init
      [.in_completion [7, 8, 9], .usb, .usb, .usb, .usb, .read 1, .usb, .reader,
        .reader, .reader, .usb] = some s ∧ Fidelity 2 s := by
  obtain ⟨s, hs⟩ := Option.isSome_iff_exists.mp
    (show ((machine ℕ 100000 2).run .init
      [.in_completion [7, 8, 9], .usb, .usb, .usb, .usb, .read 1, .usb, .reader,
        .reader, .reader, .usb]).isSome = true by decide)
  exact ⟨s, hs, fidelity (by decide) hs⟩

/-! ### Where the counter leaves the queue -/

/-- The schedule by which the USB thread pushes and counts `k` samples. -/
def pushes : ℕ → List (Act α)
  | 0 => []
  | k + 1 => .usb :: .usb :: pushes k

/-- In a continuous run with room for `k` samples the USB thread pushes and counts
them all. -/
theorem run_pushes [Inhabited α] (x : α) (hcap : m_queue_size < 2 ^ 32) :
    ∀ (k : ℕ) (s : State α m_queue_size), s.usb = .decoding (List.replicate k x) →
      s.m_in_samples_avail = s.m_in_samples_q.items.length →
      s.m_in_samples_q.items.length + k ≤ m_queue_size →
      ∃ t, (machine α m_queue_size 0).run s (pushes k) = some t ∧
        t.usb = .decoding [] ∧ t.reader = s.reader ∧
        t.m_in_samples_avail = t.m_in_samples_q.items.length ∧
        t.m_in_samples_q.items.length = s.m_in_samples_q.items.length + k := by
  intro k
  induction k with
  | zero =>
      intro s husb havail _
      exact ⟨s, rfl, husb, rfl, havail, rfl⟩
  | succ k ih =>
      intro s husb havail hroom
      obtain ⟨q, hpush⟩ : ∃ q, s.m_in_samples_q.push x = some q := by
        rw [← Option.ne_none_iff_exists']
        intro hnone
        have hfull := BoundedQueue.push_eq_none_iff.mp hnone
        omega
      obtain ⟨-, hitems⟩ := BoundedQueue.push_eq_some_iff.mp hpush
      have hlen : q.items.length = s.m_in_samples_q.items.length + 1 := by
        rw [hitems, List.length_append, List.length_singleton]
      have hadd : Counter.add 32 s.m_in_samples_avail 1 = s.m_in_samples_avail + 1 :=
        Counter.add_of_lt (by omega)
      obtain ⟨t, hrun, hdone, hreader, hcounted, hfilled⟩ :=
        ih { s with
              m_in_sampleno := Counter.add 64 s.m_in_sampleno 1
              decoded := s.decoded ++ [x]
              m_in_samples_q := q
              m_in_samples_avail := s.m_in_samples_avail + 1
              usb := .decoding (List.replicate k x) }
          rfl (by simp only [hlen, havail]) (by simp only [hlen]; omega)
      refine ⟨t, ?_, hdone, hreader, hcounted, by simp only [hlen] at hfilled; omega⟩
      have hpushed : usbStep 0 s = some { s with
          m_in_sampleno := Counter.add 64 s.m_in_sampleno 1
          decoded := s.decoded ++ [x]
          m_in_samples_q := q
          usb := .counting (List.replicate k x) } := by
        simp only [usbStep, husb, List.replicate_succ, hpush, true_or, if_true]
      rw [pushes, Machine.run_cons_eq_some_iff]
      refine ⟨_, hpushed, ?_⟩
      rw [Machine.run_cons_eq_some_iff]
      refine ⟨_, rfl, ?_⟩
      rw [hadd]
      exact hrun

/-- With a queue of `2 ^ 32 - 1` samples a push that falls between the pop and the
decrement of `read` makes the 32-bit counter wrap, and the decrement finds zero. -/
theorem exists_wrap [Inhabited α] (x : α) (hcap : m_queue_size + 1 = 2 ^ 32) :
    ∃ (as : List (Act α)) (s t : State α m_queue_size),
      (machine α m_queue_size 0).run .init as = some s ∧
        (machine α m_queue_size 0).step s .reader = some t ∧
        s.m_in_samples_avail = 0 ∧ t.m_in_samples_avail = 2 ^ 32 - 1 := by
  obtain ⟨u, hrun, husb, hreader, havail, hlen⟩ :=
    run_pushes x (by omega) m_queue_size
      { (State.init : State α m_queue_size) with
        usb := .decoding (List.replicate m_queue_size x) }
      rfl rfl (by simp [State.init])
  obtain ⟨⟨items, hle⟩, avail, sampleno, usb, reader, decoded, flushedAt, delivered,
    dropped⟩ := u
  simp only [State.init, BoundedQueue.items_empty, List.length_nil, Nat.zero_add]
    at husb hreader havail hlen
  subst husb hreader
  cases items with
  | nil =>
      rw [List.length_nil] at hlen
      omega
  | cons y ys =>
      have hys : ys.length + 1 = m_queue_size := by rw [← List.length_cons]; exact hlen
      have hgt : ¬avail < 1 := by omega
      have htop : avail + 1 = 2 ^ 32 := by omega
      -- one more transfer, a read of one sample up to its pop, and the push
      refine ⟨.in_completion (List.replicate m_queue_size x) :: (pushes m_queue_size ++
        [.usb, .in_completion [x], .read 1, .reader, .reader, .usb, .usb]),
        { m_in_samples_q :=
            ⟨ys ++ [x], by rw [List.length_append, List.length_singleton]; omega⟩
          m_in_samples_avail := Counter.add 32 avail 1
          m_in_sampleno := Counter.add 64 sampleno 1
          usb := .decoding []
          reader := .popped 1 1 0 y
          decoded := decoded ++ [x]
          flushedAt := flushedAt
          delivered := delivered
          dropped := dropped }, _, ?_, rfl, ?_, ?_⟩
      · rw [Machine.run_cons_eq_some_iff]
        refine ⟨_, rfl, ?_⟩
        rw [Machine.run_append_eq_some_iff]
        refine ⟨_, hrun, ?_⟩
        have hroom : ys.length < m_queue_size := by omega
        simp [Machine.run_cons, machine, usbStep, readerStep, BoundedQueue.pop,
          BoundedQueue.push, hgt, hroom]
      · rw [Counter.add, htop, Nat.mod_self]
      · simp only [Counter.add, htop, Nat.mod_self, Counter.pred_zero]

/-- Behind the end of a run of one sample the USB thread passes over the samples, until
`m_in_sampleno` wraps. -/
theorem run_unwanted [Inhabited α] (x : α) (rest : List α) :
    ∀ (k : ℕ) (s : State α m_queue_size), s.usb = .decoding (List.replicate k x ++ rest) →
      0 < s.m_in_sampleno → s.m_in_sampleno + k < 2 ^ 64 →
      (machine α m_queue_size 1).run s (List.replicate k .usb) = some { s with
        m_in_sampleno := s.m_in_sampleno + k
        decoded := s.decoded ++ List.replicate k x
        usb := .decoding rest } := by
  intro k
  induction k with
  | zero =>
      intro s husb _ _
      simp only [List.replicate_zero, List.nil_append] at husb
      simp [← husb]
  | succ k ih =>
      intro s husb hpos hlt
      have hadd : Counter.add 64 s.m_in_sampleno 1 = s.m_in_sampleno + 1 :=
        Counter.add_of_lt (by omega)
      have hnot : ¬(1 = 0 ∨ s.m_in_sampleno + 1 ≤ 1) := by omega
      have hpassed : usbStep 1 s = some { s with
          m_in_sampleno := s.m_in_sampleno + 1
          decoded := s.decoded ++ [x]
          usb := .decoding (List.replicate k x ++ rest) } := by
        simp only [usbStep, husb, List.replicate_succ, List.cons_append, hadd, if_neg hnot]
      have hrest := ih { s with
          m_in_sampleno := s.m_in_sampleno + 1
          decoded := s.decoded ++ [x]
          usb := .decoding (List.replicate k x ++ rest) } rfl (Nat.succ_pos _)
        (by simp only; omega)
      rw [List.replicate_succ, Machine.run_cons_eq_some_iff]
      refine ⟨_, hpassed, hrest.trans ?_⟩
      simp only [List.append_assoc, List.singleton_append, ← List.replicate_succ,
        Nat.add_assoc, Nat.add_comm 1 k]

/-- A run of one sample that gets `2 ^ 64` of them pushes the last one, too. -/
theorem exists_excess [Inhabited α] (x : α) (hroom : 2 ≤ m_queue_size) :
    ∃ (as : List (Act α)) (s : State α m_queue_size),
      (machine α m_queue_size 1).run .init as = some s ∧ s.dropped = false ∧
        s.delivered ++ s.reader.hand ++ s.m_in_samples_q.items ≠
          (cut 1 s.decoded).drop s.flushedAt := by
  obtain ⟨k, hk⟩ : ∃ k, k + 2 = 2 ^ 64 := ⟨2 ^ 64 - 2, rfl⟩
  obtain ⟨q, hq⟩ : ∃ q, (BoundedQueue.empty : BoundedQueue α m_queue_size).push x = some q :=
    Option.ne_none_iff_exists'.mp fun hfull => by
      have hlen := BoundedQueue.push_eq_none_iff.mp hfull
      rw [BoundedQueue.items_empty, List.length_nil] at hlen
      omega
  have hitems := (BoundedQueue.push_eq_some_iff.mp hq).2
  rw [BoundedQueue.items_empty, List.nil_append] at hitems
  obtain ⟨r, hr⟩ : ∃ r, q.push x = some r :=
    Option.ne_none_iff_exists'.mp fun hfull => by
      have hlen := BoundedQueue.push_eq_none_iff.mp hfull
      rw [hitems, List.length_singleton] at hlen
      omega
  have hitems' := (BoundedQueue.push_eq_some_iff.mp hr).2
  let s : State α m_queue_size :=
    { (State.init : State α m_queue_size) with
      m_in_samples_q := q
      m_in_samples_avail := 1
      m_in_sampleno := 1
      usb := .decoding (List.replicate k x ++ [x])
      decoded := [x] }
  have hpassed := run_unwanted x [x] k s rfl Nat.one_pos (by simp only [s]; omega)
  have hwrap : Counter.add 64 (1 + k) 1 = 0 := by
    rw [Counter.add, show 1 + k + 1 = 2 ^ 64 by omega, Nat.mod_self]
  refine ⟨[.in_completion (x :: (List.replicate k x ++ [x])), .usb, .usb] ++
    (List.replicate k .usb ++ [.usb]), { s with
      m_in_samples_q := r
      m_in_sampleno := 0
      usb := .counting []
      decoded := [x] ++ List.replicate k x ++ [x] }, ?_, rfl, ?_⟩
  · rw [Machine.run_append_eq_some_iff]
    refine ⟨s, ?_, ?_⟩
    · have hfirst : Counter.add 64 0 1 = 1 ∧ Counter.add 32 0 1 = 1 := by decide
      simp [Machine.run_cons, machine, usbStep, State.init, hfirst, hq, s]
    · rw [Machine.run_append_eq_some_iff]
      refine ⟨_, hpassed, ?_⟩
      simp [Machine.run_singleton, machine, usbStep, hwrap, hr, s]
  · intro heq
    have hlength := congrArg List.length heq
    simp [s, State.init, ReaderPc.hand, cut, hitems', hitems] at hlength

/-- **The counters do leave the queue behind.** Between the pop and the decrement of
`read` the counter exceeds the queue by the popped sample, and with the largest queue
a decrement can find the counter at zero and wrap. And a run of one sample has pushed two
when `m_in_sampleno` has wrapped. -/
theorem avail_exceeds_queue :
    (∃ (as : List (Act ℕ)) (s : State ℕ 100000),
      (machine ℕ 100000 0).run .init as = some s ∧
        s.m_in_samples_q.items.length < s.m_in_samples_avail) ∧
    (∃ (as : List (Act ℕ)) (s t : State ℕ (2 ^ 32 - 1)),
      (machine ℕ (2 ^ 32 - 1) 0).run .init as = some s ∧
        (machine ℕ (2 ^ 32 - 1) 0).step s .reader = some t ∧
        s.m_in_samples_avail = 0 ∧ t.m_in_samples_avail = 2 ^ 32 - 1) ∧
    ∃ (as : List (Act ℕ)) (s : State ℕ 100000),
      (machine ℕ 100000 1).run .init as = some s ∧ s.dropped = false ∧
        s.delivered ++ s.reader.hand ++ s.m_in_samples_q.items ≠
          (cut 1 s.decoded).drop s.flushedAt := by
  refine ⟨⟨[.in_completion [7], .usb, .usb, .read 1, .reader, .reader],
    { (State.init : State ℕ 100000) with
      m_in_samples_avail := 1
      m_in_sampleno := 1
      usb := .decoding []
      reader := .popped 1 1 0 7
      decoded := [7] }, by decide, by decide⟩, exists_wrap 7 (by decide),
    exists_excess 7 (by decide)⟩

end Libsmu.InputFifo
