import Libsmu.EncodeOut
import Libsmu.Lib.Machine

/-!
# The Output Supply Counter

`m_out_samples_avail` tells `encode_out` how many samples of a channel it may count on.
`write` raises it before the samples are queued, the write thread raises it each time it
starts over with a cyclic buffer, `flush` zeroes it, and `encode_out` lowers it with every
sample it takes. This module follows the counter and the samples of one channel through
any order of these operations, each of them one step, with noncontinuous runs, continuous
starts and ends in between.

* A `write` on a channel whose last buffer was cyclic flushes first, and then waits for
  the buffer to be free. It may time out waiting.
* A `flush` that finds the write thread inside its loop waits until the thread has
  abandoned the buffer; a buffer the thread has not taken up yet stays.
* A `push` is followed by the test of `m_out_samples_stop`, so that a channel switched
  off pauses after it.
* Transfers are filled position by position. The other channel may throw in between,
  which ends the fill.

In a noncontinuous run `encode_out` takes a sample only if the counter is positive; in a
continuous one it takes every sample there is.

## Main results

* `supplied_iff`: the counter never wraps, never exceeds the number of samples still to
  come, and never makes a noncontinuous run wait for a sample nobody supplied, exactly
  when every continuous-mode `encode_out` finds the counter positive.
* `guarded_of_counted`: which it does if every sample still to come is counted when a
  continuous run starts, and a flush during one leaves nothing behind.
* `avail_wraps`: a sample taken ahead in a noncontinuous run is counted twice, and the
  continuous run after it takes the counter below zero.
-/

namespace Libsmu.OutputSupply

variable {α : Type*} {cap S : ℕ}

/-- Where the write thread of the channel stands. -/
inductive WritePc (α : Type*)
  /-- not created yet -/
  | absent
  /-- in `cv.wait` for a buffer -/
  | waiting
  /-- in its loop, with these samples of the buffer still to be pushed -/
  | pushing (rest : List α)
  /-- in its loop, waiting for `m_out_samples_stop` to change from 2 -/
  | paused (rest : List α)
  deriving DecidableEq

/-- The output side of one channel, with the run it takes part in. -/
structure State (α : Type*) (cap : ℕ) where
  chan : OutChannel α cap
  m_out_samples_buf : List α
  m_out_samples_buf_cyclic : Bool
  m_out_samples_stop : ℕ
  thread : WritePc α
  m_sample_count : ℕ
  m_out_sampleno : ℕ
  /-- whether a run is going on -/
  streaming : Bool
  /-- positions of the current transfer still to be filled -/
  left : ℕ
  /-- record: whether `m_out_samples_avail` was ever decremented at zero -/
  wrapped : Bool

/-- A channel to which nothing was written, before the first run. -/
def State.init (α : Type*) (cap : ℕ) (m : Mode) : State α cap where
  chan := .fresh m
  m_out_samples_buf := []
  m_out_samples_buf_cyclic := false
  m_out_samples_stop := 0
  thread := .absent
  m_sample_count := 0
  m_out_sampleno := 0
  streaming := false
  left := 0
  wrapped := false

/-- One step of the user, the write thread or the thread that fills OUT transfers. -/
inductive Act (α : Type*)
  /-- `write(buf, ch, cyclic)`, returning 0 -/
  | write (buf : List α) (cyclic : Bool)
  /-- `write` of some buffer, throwing because the buffer of the channel is not freed -/
  | writeTimeout
  /-- `flush(ch, _)` -/
  | flush
  /-- the write thread wakes up for a buffer -/
  | take
  /-- `q.push` of `k` samples, and the test of the stop flag -/
  | push (k : ℕ)
  /-- the whole buffer is pushed: start over if it is cyclic, else wipe it -/
  | finish
  /-- the paused write thread finds the stop flag changed -/
  | resume
  | set_mode (m : Mode)
  /-- `run(samples)`; 0 starts a continuous run -/
  | run (samples : ℕ)
  /-- `off()`, as `Session::end` calls it -/
  | off
  /-- `submit_out_transfer` begins to fill a transfer -/
  | fill
  /-- the next position; afterwards the other channel throws unless `completes` -/
  | encode (completes : Bool)
  /-- the other channel threw first, and the fill ends -/
  | cut

/-- The samples of the buffer that are not pushed yet. -/
def State.rest (s : State α cap) : List α :=
  match s.thread with
  | .absent => s.m_out_samples_buf
  | .waiting => s.m_out_samples_buf
  | .pushing rest => rest
  | .paused rest => rest

/-- How many samples of the channel are still to come: queued, held as a look-ahead, or
not pushed yet. -/
def State.toCome (s : State α cap) : ℕ := s.chan.unused.length + s.rest.length

/-- What `flush` does: a write thread in its loop abandons the buffer; then the queue is
emptied and the counter zeroed. -/
def State.flushed (s : State α cap) : State α cap :=
  let s := { s with
    m_out_samples_stop := 1
    chan := { s.chan with m_out_samples_q := .empty, m_out_samples_avail := 0 } }
  match s.thread with
  | .absent => s
  | .waiting => s
  | .pushing _ => { s with m_out_samples_buf := [], thread := .waiting }
  | .paused _ => { s with m_out_samples_buf := [], thread := .waiting }

/-- `flush`. It holds `m_state`, so no transfer is being filled. -/
def State.flush (s : State α cap) : Option (State α cap) :=
  if s.left = 0 then some s.flushed else none

/-- The flush that `write` makes before a new buffer if the last one was cyclic. -/
def State.flushCyclic (s : State α cap) : Option (State α cap) :=
  if s.m_out_samples_buf_cyclic then s.flush else some s

/-- Running `write_samples` in a new thread, if there is none yet. -/
def WritePc.start : WritePc α → WritePc α
  | .absent => .waiting
  | thread => thread

/-- Whether the write thread exists. -/
def WritePc.joinable : WritePc α → Bool
  | .absent => false
  | _ => true

/-- The write thread's steps. -/
def threadStep (s : State α cap) : Act α → Option (State α cap)
  | .take =>
      match s.thread, s.m_out_samples_buf with
      | .waiting, x :: xs =>
          some { s with m_out_samples_stop := 0, thread := .pushing (x :: xs) }
      | _, _ => none
  | .push k =>
      match s.thread with
      | .pushing rest =>
          if 0 < rest.length ∧ k ≤ rest.length then
            (s.chan.m_out_samples_q.pushAll (rest.take k)).map fun q =>
              { s with
                chan := { s.chan with m_out_samples_q := q }
                thread :=
                  if s.m_out_samples_stop = 2 then .paused (rest.drop k)
                  else .pushing (rest.drop k) }
          else none
      | _ => none
  | .finish =>
      match s.thread with
      | .pushing [] =>
          if s.m_out_samples_buf_cyclic then
            some { s with
              chan := { s.chan with
                m_out_samples_avail := Counter.add 32 s.chan.m_out_samples_avail
                  s.m_out_samples_buf.length }
              thread := .pushing s.m_out_samples_buf }
          else some { s with m_out_samples_buf := [], thread := .waiting }
      | _ => none
  | .resume =>
      match s.thread with
      | .paused rest =>
          if s.m_out_samples_stop ≠ 2 then some { s with thread := .pushing rest } else none
      | _ => none
  | _ => none

/-- The steps of filling OUT transfers. -/
def fillStep (S : ℕ) (s : State α cap) : Act α → Option (State α cap)
  | .fill =>
      if s.streaming ∧ s.left = 0 ∧
          (s.m_sample_count = 0 ∨ s.m_out_sampleno < s.m_sample_count) then
        some { s with left := S }
      else none
  | .encode completes =>
      if 0 < s.left then
        if s.m_sample_count = 0 ∨ s.m_out_sampleno ≤ s.m_sample_count then
          match s.chan.encode_sample s.m_sample_count
              (decide (s.m_sample_count > 0 ∧ s.m_out_sampleno = s.m_sample_count)) with
          | .done _ chan =>
              let s := { s with
                chan := chan
                wrapped := s.wrapped || decide (s.chan.m_mode.sourcing ∧
                  s.m_sample_count = 0 ∧ s.chan.m_out_samples_avail = 0) }
              if completes then
                some { s with
                  m_out_sampleno := Counter.add 64 s.m_out_sampleno 1
                  left := s.left - 1 }
              else some { s with left := 0 }
          | .noFallback => some { s with left := 0 }
          | .waits => none
        else
          some { s with
            m_out_sampleno := Counter.add 64 s.m_out_sampleno 1
            left := s.left - 1 }
      else none
  | .cut => if 0 < s.left then some { s with left := 0 } else none
  | _ => none

/-- The channel as a machine. -/
def machine (α : Type*) (S cap : ℕ) : Machine (State α cap) (Act α) where
  step s
    | .write buf cyclic =>
        s.flushCyclic.bind fun s =>
          match s.m_out_samples_buf with
          | [] =>
              some { s with
                chan := { s.chan with
                  m_out_samples_avail :=
                    Counter.add 32 s.chan.m_out_samples_avail buf.length }
                m_out_samples_buf := buf
                m_out_samples_buf_cyclic := cyclic }
          | _ :: _ => none
    | .writeTimeout => s.flushCyclic
    | .flush => s.flush
    | .set_mode m => some { s with chan := { s.chan with m_mode := m } }
    | .run samples =>
        if s.left = 0 then
          some { s with
            m_sample_count := samples
            m_out_sampleno := 0
            streaming := true
            thread := s.thread.start
            m_out_samples_stop :=
              if s.thread.joinable ∧ s.m_out_samples_stop = 2 then 0
              else s.m_out_samples_stop }
        else none
    | .off => some { s with streaming := false, m_out_samples_stop := 2 }
    | .take => threadStep s .take
    | .push k => threadStep s (.push k)
    | .finish => threadStep s .finish
    | .resume => threadStep s .resume
    | .fill => fillStep S s .fill
    | .encode completes => fillStep S s (.encode completes)
    | .cut => fillStep S s .cut

/-! ### What the steps do to the counter -/

/-- A write thread in its loop works on a buffer. -/
def State.Wf (s : State α cap) : Prop :=
  match s.thread with
  | .absent => True
  | .waiting => True
  | .pushing _ => s.m_out_samples_buf ≠ []
  | .paused _ => s.m_out_samples_buf ≠ []

/-- Exactly `k` of the samples still to come are not counted. -/
structure Uncounted (k : ℕ) (s : State α cap) : Prop where
  wf : s.Wf
  wrapped : s.wrapped = false
  lt : s.chan.m_out_samples_avail < 2 ^ 32
  eq : s.chan.m_out_samples_avail + k = s.toCome

/-- **The guard the continuous mode lacks**: `encode_out` of a sourcing channel in a
continuous run finds the counter positive. -/
def Guarded (s : State α cap) : Act α → Prop
  | .encode _ =>
      s.chan.m_mode.sourcing → s.m_sample_count = 0 → 0 < s.chan.m_out_samples_avail
  | _ => True

/-- A flush in this state leaves no sample to come: no look-ahead sample is held, and
there is no buffer the write thread has not taken up. -/
def LeavesNothing (s : State α cap) : Prop :=
  s.chan.m_next_output = none ∧
    match s.thread with
    | .absent => s.m_out_samples_buf = []
    | .waiting => s.m_out_samples_buf = []
    | .pushing _ => True
    | .paused _ => True

/-- A step of a continuous run that leaves no sample uncounted if none was: a flush leaves
nothing behind, and the counter does not exceed 32 bits. -/
def Exact (s : State α cap) : Act α → Prop
  | .write buf _ =>
      (s.m_out_samples_buf_cyclic → LeavesNothing s) ∧ s.toCome + buf.length < 2 ^ 32
  | .writeTimeout => s.m_out_samples_buf_cyclic → LeavesNothing s
  | .flush => LeavesNothing s
  | .finish => s.toCome + s.m_out_samples_buf.length < 2 ^ 32
  | _ => True

/-- Continuous runs start with every sample counted, and keep it so. -/
def Counts (s : State α cap) : Act α → Prop
  | .run samples => samples = 0 → s.chan.m_out_samples_avail = s.toCome
  | a => s.m_sample_count = 0 → Exact s a

variable {s t : State α cap} {k : ℕ}

theorem Uncounted.init (m : Mode) : Uncounted 0 (State.init α cap m) :=
  ⟨trivial, rfl, Nat.two_pow_pos 32, rfl⟩

/-- Raising the counter with the samples that come. -/
theorem Uncounted.add (h : Uncounted k s) {n : ℕ} (hwf : t.Wf)
    (hwrapped : t.wrapped = s.wrapped)
    (havail : t.chan.m_out_samples_avail = Counter.add 32 s.chan.m_out_samples_avail n)
    (hcome : t.toCome = s.toCome + n) :
    ∃ k', Uncounted k' t ∧ (s.toCome + n < 2 ^ 32 → k' = k) := by
  have hle := Counter.add_le 32 s.chan.m_out_samples_avail n
  have heq := h.eq
  refine ⟨t.toCome - t.chan.m_out_samples_avail, ⟨hwf, hwrapped.trans h.wrapped, ?_, ?_⟩, ?_⟩
  · rw [havail]
    exact Counter.add_lt _ _ _
  · omega
  · intro hfit
    rw [Counter.add_of_lt (by omega)] at havail
    omega

theorem wf_flushed (s : State α cap) : s.flushed.Wf := by
  rw [State.flushed, State.Wf]
  cases s.thread <;> exact trivial

theorem wf_of_flush (hstep : s.flush = some t) : t.Wf := by
  rw [State.flush] at hstep
  split at hstep
  · obtain rfl := Option.some.inj hstep
    exact wf_flushed s
  · cases hstep

theorem wf_of_flushCyclic (h : s.Wf) (hstep : s.flushCyclic = some t) : t.Wf := by
  rw [State.flushCyclic] at hstep
  split at hstep
  · exact wf_of_flush hstep
  · obtain rfl := Option.some.inj hstep
    exact h

/-- Flushing leaves nothing counted. -/
theorem Uncounted.flush (h : Uncounted k s) (hstep : s.flush = some t) :
    t.m_sample_count = s.m_sample_count ∧
      ∃ k', Uncounted k' t ∧ (LeavesNothing s → k' = 0 ∧ t.toCome = 0) := by
  rw [State.flush] at hstep
  split at hstep
  · obtain rfl := Option.some.inj hstep
    have hzero : s.flushed.chan.m_out_samples_avail = 0 := by
      rw [State.flushed]
      cases s.thread <;> rfl
    refine ⟨?_, s.flushed.toCome, ⟨wf_flushed s, ?_, ?_, ?_⟩, ?_⟩
    · rw [State.flushed]
      cases s.thread <;> rfl
    · rw [← h.wrapped]
      rw [State.flushed]
      cases s.thread <;> rfl
    · rw [hzero]
      exact Nat.two_pow_pos 32
    · rw [hzero, Nat.zero_add]
    · intro hnothing
      obtain ⟨hnext, hbuf⟩ := hnothing
      have hcome : s.flushed.toCome = 0 := by
        rw [State.flushed, State.toCome, State.rest, OutChannel.unused]
        cases hthread : s.thread <;> simp_all
      exact ⟨hcome, hcome⟩
  · cases hstep

theorem Uncounted.flushCyclic (h : Uncounted k s) (hstep : s.flushCyclic = some t) :
    t.m_sample_count = s.m_sample_count ∧
      ∃ k', Uncounted k' t ∧ ((s.m_out_samples_buf_cyclic → LeavesNothing s) →
        (k = 0 → k' = 0) ∧ t.toCome ≤ s.toCome) := by
  rw [State.flushCyclic] at hstep
  split at hstep
  · rename_i hcyclic
    obtain ⟨hN, k', hk', hzero⟩ := h.flush hstep
    refine ⟨hN, k', hk', ?_⟩
    intro hnothing
    obtain ⟨hk, hcome⟩ := hzero (hnothing hcyclic)
    exact ⟨fun _ => hk, by omega⟩
  · obtain rfl := Option.some.inj hstep
    exact ⟨rfl, k, h, fun _ => ⟨id, Nat.le_refl _⟩⟩

/-- **The write thread's steps** move samples; only starting over with a cyclic buffer
brings new ones, which it counts. -/
theorem threadStep_effect {a : Act α} (hwf : s.Wf) (hstep : threadStep s a = some t) :
    t.Wf ∧ t.wrapped = s.wrapped ∧ t.m_sample_count = s.m_sample_count ∧
      ((t.chan.m_out_samples_avail = s.chan.m_out_samples_avail ∧ t.toCome = s.toCome) ∨
        a = .finish ∧ t.toCome = s.toCome + s.m_out_samples_buf.length ∧
          t.chan.m_out_samples_avail =
            Counter.add 32 s.chan.m_out_samples_avail s.m_out_samples_buf.length) := by
  rw [State.Wf] at hwf
  cases a with
  | take =>
      simp only [threadStep] at hstep
      split at hstep
      · rename_i x xs hthread hbuf
        obtain rfl := Option.some.inj hstep
        refine ⟨?_, rfl, rfl, .inl ⟨rfl, ?_⟩⟩
        · simp only [State.Wf, hbuf]
          exact List.cons_ne_nil _ _
        · simp only [State.toCome, State.rest, ← hbuf, hthread]
      · cases hstep
  | push k =>
      simp only [threadStep] at hstep
      split at hstep
      · rename_i rest hthread
        rw [hthread] at hwf
        split at hstep
        · obtain ⟨q, hq, rfl⟩ := Option.map_eq_some_iff.mp hstep
          obtain ⟨-, hitems⟩ := BoundedQueue.pushAll_eq_some_iff.mp hq
          have hlen := congrArg List.length hitems
          have hsplit := congrArg List.length (List.take_append_drop k rest)
          rw [List.length_append] at hlen hsplit
          by_cases hstop : s.m_out_samples_stop = 2
          · simp only [if_pos hstop]
            refine ⟨hwf, trivial, trivial, .inl ⟨trivial, ?_⟩⟩
            simp only [State.toCome, State.rest, OutChannel.unused, List.length_append, hthread]
            omega
          · simp only [if_neg hstop]
            refine ⟨hwf, trivial, trivial, .inl ⟨trivial, ?_⟩⟩
            simp only [State.toCome, State.rest, OutChannel.unused, List.length_append, hthread]
            omega
        · cases hstep
      · cases hstep
  | finish =>
      simp only [threadStep] at hstep
      split at hstep
      · rename_i hthread
        rw [hthread] at hwf
        split at hstep
        · obtain rfl := Option.some.inj hstep
          refine ⟨hwf, rfl, rfl, .inr ⟨rfl, ?_, rfl⟩⟩
          simp only [State.toCome, State.rest, OutChannel.unused, hthread, List.length_nil,
            Nat.add_zero]
        · obtain rfl := Option.some.inj hstep
          refine ⟨trivial, rfl, rfl, .inl ⟨rfl, ?_⟩⟩
          simp only [State.toCome, State.rest, hthread]
      · cases hstep
  | resume =>
      simp only [threadStep] at hstep
      split at hstep
      · rename_i rest hthread
        rw [hthread] at hwf
        split at hstep
        · obtain rfl := Option.some.inj hstep
          refine ⟨hwf, rfl, rfl, .inl ⟨rfl, ?_⟩⟩
          simp only [State.toCome, State.rest, hthread]
        · cases hstep
      · cases hstep
  | _ => cases hstep

/-- No step leaves the write thread in its loop without a buffer. -/
theorem wf_of_step {a : Act α} (h : s.Wf) (hstep : (machine α S cap).step s a = some t) :
    t.Wf := by
  cases a with
  | write buf cyclic =>
      obtain ⟨u, hu, hstep⟩ := Option.bind_eq_some_iff.mp hstep
      have hwf := wf_of_flushCyclic h hu
      split at hstep
      · rename_i hbuf
        obtain rfl := Option.some.inj hstep
        simp only [State.Wf, hbuf] at hwf ⊢
        cases hthread : u.thread <;> rw [hthread] at hwf
        · trivial
        · trivial
        · exact absurd rfl hwf
        · exact absurd rfl hwf
      · cases hstep
  | writeTimeout => exact wf_of_flushCyclic h hstep
  | flush => exact wf_of_flush hstep
  | take => exact (threadStep_effect (a := .take) h hstep).1
  | push k => exact (threadStep_effect (a := .push k) h hstep).1
  | finish => exact (threadStep_effect (a := .finish) h hstep).1
  | resume => exact (threadStep_effect (a := .resume) h hstep).1
  | set_mode m | off =>
      obtain rfl := Option.some.inj hstep
      exact h
  | run samples =>
      simp only [machine] at hstep
      split at hstep
      · obtain rfl := Option.some.inj hstep
        simp only [State.Wf] at h ⊢
        cases hthread : s.thread <;> rw [hthread] at h <;> exact h
      · cases hstep
  | fill | cut =>
      simp only [machine, fillStep] at hstep
      split at hstep
      · obtain rfl := Option.some.inj hstep
        exact h
      · cases hstep
  | encode completes =>
      simp only [machine, fillStep] at hstep
      split at hstep
      · split at hstep
        · split at hstep
          · split at hstep <;> obtain rfl := Option.some.inj hstep <;> exact h
          · obtain rfl := Option.some.inj hstep
            exact h
          · cases hstep
        · obtain rfl := Option.some.inj hstep
          exact h
      · cases hstep

theorem Uncounted.threadStep {a : Act α} (h : Uncounted k s)
    (hstep : threadStep s a = some t) :
    t.m_sample_count = s.m_sample_count ∧
      ∃ k', Uncounted k' t ∧ (Exact s a → k' = k) := by
  obtain ⟨hwf, hwrapped, hN, ⟨havail, hcome⟩ | ⟨rfl, hcome, havail⟩⟩ :=
    threadStep_effect h.wf hstep
  · refine ⟨hN, k, ⟨hwf, hwrapped.trans h.wrapped, ?_, ?_⟩, fun _ => rfl⟩
    · rw [havail]
      exact h.lt
    · rw [havail, hcome]
      exact h.eq
  · exact ⟨hN, h.add hwf hwrapped havail hcome⟩

/-- What `encode_sample` does to the counter of a channel, if the counter is positive or
the run noncontinuous: it goes down by one for every sample that is carried, and once more
for a look-ahead. -/
theorem encode_sample_effect {N : ℕ} {peek : Bool} {c c' : OutChannel α cap} {val : Option α}
    (hguard : c.m_mode.sourcing → N = 0 → 0 < c.m_out_samples_avail)
    (hlt : c.m_out_samples_avail < 2 ^ 32) (h : c.encode_sample N peek = .done val c') :
    (c'.m_out_samples_avail = c.m_out_samples_avail ∧ c'.unused = c.unused) ∨
      (c'.m_out_samples_avail + 1 = c.m_out_samples_avail ∧
        (c'.unused.length + 1 = c.unused.length ∨
          peek = true ∧ c'.unused.length = c.unused.length)) := by
  by_cases hsrc : c.m_mode.sourcing
  · by_cases hcount : N = 0 ∨ c.m_out_samples_avail > 0
    · have hpos : 0 < c.m_out_samples_avail := hcount.elim (hguard hsrc) id
      cases htake : c.takeNext with
      | none =>
          rw [OutChannel.encode_sample_of_unsupplied hsrc hcount htake] at h
          cases h
      | some r =>
          obtain ⟨x, q⟩ := r
          rw [OutChannel.encode_sample_of_counted hsrc hcount htake] at h
          cases h
          have hpred := Counter.pred_of_pos hpos (Nat.le_of_lt hlt)
          have hunused := OutChannel.unused_of_takeNext htake
          refine .inr ⟨by simp only [hpred]; omega, ?_⟩
          cases peek with
          | true => exact .inr ⟨rfl, by rw [hunused]; rfl⟩
          | false => exact .inl (by rw [hunused]; rfl)
    · rw [OutChannel.encode_sample_of_uncounted hsrc hcount] at h
      split at h <;> cases h
      exact .inl ⟨rfl, rfl⟩
  · rw [OutChannel.encode_sample_of_floating hsrc] at h
    cases h
    exact .inl ⟨rfl, rfl⟩

/-- **The encode lemma.** An `encode_out` that finds the counter positive, or is in a
noncontinuous run, leaves the counter right; only a look-ahead leaves one more sample
uncounted. -/
theorem Uncounted.encode {completes : Bool} (h : Uncounted k s)
    (hguard : Guarded s (.encode completes))
    (hstep : fillStep S s (.encode completes) = some t) :
    t.m_sample_count = s.m_sample_count ∧
      ∃ k', Uncounted k' t ∧ (s.m_sample_count = 0 → k' = k) := by
  obtain ⟨hwf, hwrapped, hlt, heq⟩ := h
  simp only [fillStep] at hstep
  split at hstep
  · split at hstep
    · split at hstep
      · rename_i val c' hdone
        have hflag : (s.wrapped || decide (s.chan.m_mode.sourcing ∧ s.m_sample_count = 0 ∧
            s.chan.m_out_samples_avail = 0)) = false := by
          rw [hwrapped, Bool.false_or, decide_eq_false_iff_not]
          rintro ⟨hsrc, hN, hzero⟩
          exact absurd (hguard hsrc hN) (by omega)
        have heffect := encode_sample_effect (fun hsrc hN => hguard hsrc hN) hlt hdone
        have hk : ∃ k', c'.m_out_samples_avail < 2 ^ 32 ∧
            c'.m_out_samples_avail + k' = c'.unused.length + s.rest.length ∧
            (s.m_sample_count = 0 → k' = k) := by
          rw [State.toCome] at heq
          rcases heffect with ⟨havail, hunused⟩ | ⟨havail, hlen | ⟨hpeek, hlen⟩⟩
          · exact ⟨k, by omega, by rw [havail, hunused]; exact heq, fun _ => rfl⟩
          · exact ⟨k, by omega, by omega, fun _ => rfl⟩
          · refine ⟨k + 1, by omega, by omega, ?_⟩
            intro hN
            rw [decide_eq_true_eq] at hpeek
            omega
        obtain ⟨k', hlt', heq', hexact⟩ := hk
        split at hstep <;> obtain rfl := Option.some.inj hstep <;>
          exact ⟨rfl, k', ⟨hwf, hflag, hlt', heq'⟩, hexact⟩
      · obtain rfl := Option.some.inj hstep
        exact ⟨rfl, k, ⟨hwf, hwrapped, hlt, heq⟩, fun _ => rfl⟩
      · cases hstep
    · obtain rfl := Option.some.inj hstep
      exact ⟨rfl, k, ⟨hwf, hwrapped, hlt, heq⟩, fun _ => rfl⟩
  · cases hstep

/-- An `encode_out` without the guard takes the counter below zero. -/
theorem wrapped_of_unguarded {completes : Bool} (hguard : ¬Guarded s (.encode completes))
    (hstep : fillStep S s (.encode completes) = some t) : t.wrapped = true := by
  simp only [Guarded, Classical.not_imp] at hguard
  obtain ⟨hsrc, hN, hzero⟩ := hguard
  simp only [fillStep] at hstep
  split at hstep
  · rw [if_pos (.inl hN)] at hstep
    split at hstep
    · have hflag : (s.wrapped || decide (s.chan.m_mode.sourcing ∧ s.m_sample_count = 0 ∧
          s.chan.m_out_samples_avail = 0)) = true := by
        rw [Bool.or_eq_true, decide_eq_true_eq]
        exact .inr ⟨hsrc, hN, by omega⟩
      split at hstep <;> obtain rfl := Option.some.inj hstep <;> exact hflag
    · rename_i hthrow
      cases htake : s.chan.takeNext with
      | none =>
          rw [OutChannel.encode_sample_of_unsupplied hsrc (.inl hN) htake] at hthrow
          cases hthrow
      | some r =>
          rw [OutChannel.encode_sample_of_counted hsrc (.inl hN) htake] at hthrow
          cases hthrow
    · cases hstep
  · cases hstep

/-- **The step lemma**: with the guard every step leaves a number of samples uncounted
and the counter right otherwise; that number stays zero in continuous runs that start with
every sample counted and keep it so. -/
theorem Uncounted.step {a : Act α} (h : Uncounted k s) (hguard : Guarded s a)
    (hstep : (machine α S cap).step s a = some t) :
    ∃ k', Uncounted k' t ∧
      (Counts s a → (s.m_sample_count = 0 → k = 0) → t.m_sample_count = 0 → k' = 0) := by
  have hthread : ∀ {b : Act α}, OutputSupply.threadStep s b = some t →
      ∃ k', Uncounted k' t ∧ ((s.m_sample_count = 0 → Exact s b) →
        (s.m_sample_count = 0 → k = 0) → t.m_sample_count = 0 → k' = 0) := by
    intro b hb
    obtain ⟨hN, i, hi, hexact⟩ := h.threadStep hb
    refine ⟨i, hi, ?_⟩
    intro hx hk ht
    rw [hN] at ht
    rw [hexact (hx ht), hk ht]
  have hwf' := wf_of_step h.wf hstep
  cases a with
  | write buf cyclic =>
      obtain ⟨u, hu, hstep⟩ := Option.bind_eq_some_iff.mp hstep
      obtain ⟨hN, i, hi, hclean⟩ := h.flushCyclic hu
      split at hstep
      · rename_i hbuf
        obtain rfl := Option.some.inj hstep
        have hwf := hi.wf
        simp only [State.Wf, hbuf] at hwf
        obtain ⟨j, hj, hfit⟩ := hi.add (n := buf.length)
          (t := { u with
            chan := { u.chan with
              m_out_samples_avail := Counter.add 32 u.chan.m_out_samples_avail buf.length }
            m_out_samples_buf := buf
            m_out_samples_buf_cyclic := cyclic })
          hwf' rfl rfl
          (by
            simp only [State.toCome, State.rest, OutChannel.unused]
            cases hu : u.thread <;> rw [hu] at hwf
            · simp only [hbuf, List.length_nil, Nat.add_zero]
            · simp only [hbuf, List.length_nil, Nat.add_zero]
            · exact absurd rfl hwf
            · exact absurd rfl hwf)
        refine ⟨j, hj, ?_⟩
        intro hx hk ht
        obtain ⟨hnothing, hlt⟩ := hx (hN.symm.trans ht)
        obtain ⟨hzero, hle⟩ := hclean hnothing
        rw [hfit (by omega), hzero (hk (hN.symm.trans ht))]
      · cases hstep
  | writeTimeout =>
      obtain ⟨hN, i, hi, hclean⟩ := h.flushCyclic hstep
      refine ⟨i, hi, ?_⟩
      intro hx hk ht
      rw [hN] at ht
      exact (hclean (hx ht)).1 (hk ht)
  | flush =>
      obtain ⟨hN, i, hi, hclean⟩ := h.flush hstep
      refine ⟨i, hi, ?_⟩
      intro hx _ ht
      rw [hN] at ht
      exact (hclean (hx ht)).1
  | take => exact hthread (b := .take) hstep
  | push n => exact hthread (b := .push n) hstep
  | finish => exact hthread (b := .finish) hstep
  | resume => exact hthread (b := .resume) hstep
  | encode completes =>
      obtain ⟨hN, i, hi, hsame⟩ := h.encode (S := S) hguard hstep
      refine ⟨i, hi, ?_⟩
      intro _ hk ht
      rw [hN] at ht
      rw [hsame ht, hk ht]
  | set_mode m | off =>
      obtain rfl := Option.some.inj hstep
      exact ⟨k, ⟨h.wf, h.wrapped, h.lt, h.eq⟩, fun _ hk => hk⟩
  | run samples =>
      simp only [machine] at hstep
      split at hstep
      · obtain rfl := Option.some.inj hstep
        obtain ⟨-, hwrapped, hlt, heq⟩ := h
        have hzero : Counts s (.run samples) → samples = 0 → k = 0 := by
          intro hx hsamples
          have := hx hsamples
          omega
        refine ⟨k, ⟨hwf', hwrapped, hlt, ?_⟩, fun hx _ => hzero hx⟩
        simp only [State.toCome, State.rest] at heq ⊢
        cases hpc : s.thread <;> rw [hpc] at heq <;> exact heq
      · cases hstep
  | fill | cut =>
      simp only [machine, fillStep] at hstep
      split at hstep
      · obtain rfl := Option.some.inj hstep
        exact ⟨k, ⟨h.wf, h.wrapped, h.lt, h.eq⟩, fun _ hk => hk⟩
      · cases hstep

theorem wrapped_of_flush (hstep : s.flush = some t) : t.wrapped = s.wrapped := by
  rw [State.flush] at hstep
  split at hstep
  · obtain rfl := Option.some.inj hstep
    rw [State.flushed]
    cases s.thread <;> rfl
  · cases hstep

theorem wrapped_of_flushCyclic (hstep : s.flushCyclic = some t) :
    t.wrapped = s.wrapped := by
  rw [State.flushCyclic] at hstep
  split at hstep
  · exact wrapped_of_flush hstep
  · obtain rfl := Option.some.inj hstep
    rfl

theorem wrapped_of_threadStep {a : Act α} (hstep : threadStep s a = some t) :
    t.wrapped = s.wrapped := by
  cases a with
  | take =>
      simp only [threadStep] at hstep
      split at hstep
      · obtain rfl := Option.some.inj hstep
        rfl
      · cases hstep
  | push k =>
      simp only [threadStep] at hstep
      split at hstep
      · split at hstep
        · obtain ⟨q, -, rfl⟩ := Option.map_eq_some_iff.mp hstep
          rfl
        · cases hstep
      · cases hstep
  | finish =>
      simp only [threadStep] at hstep
      split at hstep
      · split at hstep <;> obtain rfl := Option.some.inj hstep <;> rfl
      · cases hstep
  | resume =>
      simp only [threadStep] at hstep
      split at hstep
      · split at hstep
        · obtain rfl := Option.some.inj hstep
          rfl
        · cases hstep
      · cases hstep
  | _ => cases hstep

/-- No step forgets that the counter has wrapped. -/
theorem wrapped_of_step {a : Act α} (h : s.wrapped = true)
    (hstep : (machine α S cap).step s a = some t) : t.wrapped = true := by
  cases a with
  | write buf cyclic =>
      obtain ⟨u, hu, hstep⟩ := Option.bind_eq_some_iff.mp hstep
      rw [← wrapped_of_flushCyclic hu] at h
      split at hstep
      · obtain rfl := Option.some.inj hstep
        exact h
      · cases hstep
  | writeTimeout => exact (wrapped_of_flushCyclic hstep).trans h
  | flush => exact (wrapped_of_flush hstep).trans h
  | take => exact (wrapped_of_threadStep (a := .take) hstep).trans h
  | push k => exact (wrapped_of_threadStep (a := .push k) hstep).trans h
  | finish => exact (wrapped_of_threadStep (a := .finish) hstep).trans h
  | resume => exact (wrapped_of_threadStep (a := .resume) hstep).trans h
  | set_mode m | off =>
      obtain rfl := Option.some.inj hstep
      exact h
  | run samples | fill | cut =>
      simp only [machine, fillStep] at hstep
      split at hstep
      · obtain rfl := Option.some.inj hstep
        exact h
      · cases hstep
  | encode completes =>
      simp only [machine, fillStep] at hstep
      split at hstep
      · split at hstep
        · split at hstep
          · split at hstep <;> obtain rfl := Option.some.inj hstep <;> simp [h]
          · obtain rfl := Option.some.inj hstep
            exact h
          · cases hstep
        · obtain rfl := Option.some.inj hstep
          exact h
      · cases hstep

/-! ### Whole runs -/

/-- **The counter keeps its promise**: it has never wrapped, it promises no more than is
still to come, and when `encode_out` of a noncontinuous run waits, part of the buffer is
still to be pushed. -/
def Supplied (s : State α cap) : Prop :=
  s.wrapped = false ∧ s.chan.m_out_samples_avail ≤ s.toCome ∧
    ∀ peek, 0 < s.m_sample_count →
      s.chan.encode_sample s.m_sample_count peek = .waits → s.rest ≠ []

/-- A counter that leaves some samples uncounted keeps its promise. -/
theorem Uncounted.supplied (h : Uncounted k s) : Supplied s := by
  have hle := h.eq
  refine ⟨h.wrapped, by omega, ?_⟩
  intro peek hN hwaits hrest
  simp only [State.toCome, hrest, List.length_nil] at hle
  rw [OutChannel.encode_sample] at hwaits
  split at hwaits
  · split at hwaits
    · rename_i hcount
      split at hwaits
      · cases hwaits
      · rename_i htake
        rw [OutChannel.takeNext_eq_none_iff.mp htake, List.length_nil] at hle
        omega
    · split at hwaits <;> cases hwaits
  · cases hwaits

/-- **The supply counter.** In the state any schedule reaches the counter keeps its
promise exactly when every continuous-mode `encode_out` of the schedule found it
positive. -/
theorem supplied_iff {m : Mode} {as : List (Act α)}
    (hrun : (machine α S cap).run (.init α cap m) as = some s) :
    Supplied s ↔ (machine α S cap).Meets Guarded (.init α cap m) as := by
  have hinit : ∃ k, Uncounted k (State.init α cap m) := ⟨0, .init m⟩
  have hkeeps : ∀ (u : State α cap) (a : Act α) (t : State α cap), (∃ k, Uncounted k u) →
      Guarded u a → (machine α S cap).step u a = some t → ∃ k, Uncounted k t := by
    rintro u a t ⟨k, hk⟩ hguard hstep
    obtain ⟨i, hi, -⟩ := hk.step hguard hstep
    exact ⟨i, hi⟩
  have hbreaks : ∀ (u : State α cap) (a : Act α) (t : State α cap), (∃ k, Uncounted k u) →
      ¬Guarded u a → (machine α S cap).step u a = some t → t.wrapped = true := by
    intro u a t _ hguard hstep
    cases a with
    | encode completes => exact wrapped_of_unguarded (S := S) hguard hstep
    | _ => exact absurd trivial hguard
  have hsplit := Machine.sound_or_broken hkeeps hbreaks
    (fun _ _ _ hwrapped hstep => wrapped_of_step hwrapped hstep) hinit hrun
  rcases hsplit with ⟨hmeets, k, hk⟩ | ⟨hmeets, hwrapped⟩
  · exact ⟨fun _ => hmeets, fun _ => hk.supplied⟩
  · refine ⟨?_, fun h => absurd h hmeets⟩
    intro hsup
    exact absurd (hwrapped.symm.trans hsup.1) (by decide)

/-- **When the guard holds**: in schedules whose continuous runs start with every sample
still to come counted and keep it so, the counter is positive whenever `encode_out` takes
a sample. -/
theorem guarded_of_counted {m : Mode} {as : List (Act α)}
    (hrun : (machine α S cap).run (.init α cap m) as = some s)
    (hmeets : (machine α S cap).Meets Counts (.init α cap m) as) :
    (machine α S cap).Meets Guarded (.init α cap m) as := by
  refine (Machine.invariant_of_history
    (fun as s => (machine α S cap).Meets Counts (.init α cap m) as →
      (machine α S cap).Meets Guarded (.init α cap m) as ∧
        ∃ k, Uncounted k s ∧ (s.m_sample_count = 0 → k = 0))
    (fun _ => ⟨trivial, 0, .init m, fun _ => rfl⟩) ?_ hrun hmeets).1
  intro as u a t hu hinv hstep hmeets
  simp only [Machine.meets_concat_iff, hu, Option.some.injEq, forall_eq'] at hmeets ⊢
  obtain ⟨hguards, k, hk, hzero⟩ := hinv hmeets.1
  have hguard : Guarded u a := by
    cases a with
    | encode completes =>
        intro hsrc hN
        by_contra havail
        -- without a counted sample there is none, and `encode_out` waits
        have hnone : u.chan.takeNext = none := by
          have heq := hk.eq
          rw [hzero hN] at heq
          rw [OutChannel.takeNext_eq_none_iff]
          refine List.eq_nil_of_length_eq_zero ?_
          rw [State.toCome] at heq
          omega
        simp only [machine, fillStep, OutChannel.encode_sample_of_unsupplied hsrc (.inl hN) hnone]
          at hstep
        split at hstep
        · rw [if_pos (.inl hN)] at hstep
          cases hstep
        · cases hstep
    | _ => trivial
  obtain ⟨i, hi, hcount⟩ := hk.step hguard hstep
  exact ⟨⟨hguards, hguard⟩, i, hi, hcount hmeets.2 hzero⟩

/-- Two samples written and queued, and one of them sent in a continuous run. -/
theorem supplied_iff_two : ∃ s : State ℕ 1000,
    (machine ℕ 256 1000).run (.init ℕ 1000 .SVMI)
        [.write [1, 2] false, .run 0, .take, .push 2, .fill, .encode true] = some s ∧
      Supplied s := by
  obtain ⟨s, hs⟩ := Option.isSome_iff_exists.mp
    (show ((machine ℕ 256 1000).run (.init ℕ 1000 .SVMI)
        [.write [1, 2] false, .run 0, .take, .push 2, .fill, .encode true]).isSome = true by
      decide +kernel)
  refine ⟨s, hs, (supplied_iff hs).mpr ?_⟩
  refine ⟨trivial, fun _ h₁ => ⟨trivial, fun _ h₂ => ⟨trivial, fun _ h₃ => ⟨trivial,
    fun _ h₄ => ⟨trivial, fun _ h₅ => ⟨?_, fun _ _ => trivial⟩⟩⟩⟩⟩⟩
  intro _ _
  obtain rfl := Option.some.inj h₁
  obtain rfl := Option.some.inj h₂
  obtain rfl := Option.some.inj h₃
  obtain rfl := Option.some.inj h₄
  obtain rfl := Option.some.inj h₅
  decide

/-- Eleven samples are written; a run of ten looks ahead at the eleventh and counts it
off; the continuous run after it sends it and counts it off again. -/
def leftOver : List (Act ℕ) :=
  [.write (List.range 11) false, .run 10, .take, .push 11, .finish, .fill] ++
    List.replicate 256 (.encode true) ++ [.off, .run 0, .fill, .encode true]

/-- **The counter goes below zero.** After the continuous run has sent the one sample that
was left, the counter promises `2 ^ 32 - 1` samples and none is to come. -/
theorem avail_wraps : ∃ s : State ℕ 1000,
    (machine ℕ 256 1000).run (.init ℕ 1000 .SVMI) leftOver = some s ∧
      s.wrapped = true ∧ s.chan.m_out_samples_avail = 2 ^ 32 - 1 ∧ s.toCome = 0 ∧
      ¬Supplied s := by
  have hrun : ((machine ℕ 256 1000).run (.init ℕ 1000 .SVMI) leftOver).map
      (fun s => (s.wrapped, s.chan.m_out_samples_avail, s.toCome)) =
        some (true, 2 ^ 32 - 1, 0) := by decide +kernel
  obtain ⟨s, hs, hout⟩ := Option.map_eq_some_iff.mp hrun
  obtain ⟨hwrapped, hout⟩ := Prod.mk.inj hout
  obtain ⟨havail, hcome⟩ := Prod.mk.inj hout
  exact ⟨s, hs, hwrapped, havail, hcome, fun h => absurd (hwrapped.symm.trans h.1) (by decide)⟩

end Libsmu.OutputSupply
