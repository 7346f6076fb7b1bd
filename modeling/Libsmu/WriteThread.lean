import Libsmu.Lib.BoundedQueue
import Libsmu.Lib.Counter
import Libsmu.Lib.Machine

/-!
# The Write Thread of a Channel

`M1000_Device::run` starts one write thread for each channel. It waits on a condition
variable until `write` has put a buffer into `m_out_samples_buf`, and pushes that into
`m_out_samples_q` piece by piece, from the beginning again if the buffer is cyclic. All that
time it holds `m_out_samples_mtx`. `off` tells it through `m_out_samples_stop` to pause (2),
`run` to go on (0) and `flush` to drop the buffer (1).

Every lock operation and every access of `m_out_samples_stop` is a step of its own, on the
write thread and on the user thread that calls `write` and `flush`; `off` and `run` may come
at any time. `q.push` takes any part of what is left for which there is room, and the
schedule says how much. The draining of the queue takes `m_state`, which `flush` holds from
beginning to end. A thread that waits for a mutex has no step until it is free.

The records `asked` and `lost` follow a `flush` that finds a buffer to be dropped.
-/

namespace Libsmu.WriteThread

variable {α : Type*} {cap : ℕ}

/-- What `write` is called with. -/
structure Buffer (α : Type*) where
  samples : List α
  cyclic : Bool
  deriving DecidableEq

/-- Where the write thread stands. -/
inductive Pc
  /-- at `lk.lock()` -/
  | lock
  /-- testing the condition of `cv.wait` -/
  | test
  /-- asleep in `cv.wait`, the mutex released -/
  | asleep
  /-- woken in `cv.wait`, to take the mutex again -/
  | woken
  /-- at `if (stop < 0)` -/
  | checkExit
  /-- at `stop = 0` -/
  | reset
  /-- at `it = buf.begin()` -/
  | start
  /-- at the head of the loop, before `q.push` -/
  | loop
  /-- at `if (stop == 2)` -/
  | pauseTest
  /-- in the `cv.wait` of a pause -/
  | paused
  /-- at `else if (stop)` -/
  | stopTest
  /-- at `if (cyclic)` -/
  | again
  /-- at the label `end` -/
  | finish
  /-- at `lk.unlock()` -/
  | unlock
  /-- returned -/
  | exited
  deriving DecidableEq

/-- The write thread holds the mutex. -/
def Pc.holds : Pc → Bool
  | .lock | .asleep | .woken | .exited => false
  | _ => true

/-- The write thread has set `it` for the buffer. -/
def Pc.begun : Pc → Bool
  | .loop | .pauseTest | .paused | .stopTest | .again | .finish => true
  | _ => false

/-- The write thread has found a buffer and is not done with it. -/
def Pc.busy : Pc → Bool
  | .checkExit | .reset | .start => true
  | pc => pc.begun

/-- Where the user thread stands in `write` and `flush`. A `flush` that `write` makes carries
the buffer to be written afterwards. -/
inductive UserPc (α : Type*)
  | idle
  /-- in the loop of `write` until the buffer is empty -/
  | waiting (b : Buffer α)
  /-- at `m_out_samples_avail += buf.size()` -/
  | bump (b : Buffer α)
  /-- at the lock in `write` -/
  | writeLock (b : Buffer α)
  /-- replacing the buffer -/
  | assign (b : Buffer α)
  /-- at `lk.unlock()` in `write` -/
  | writeUnlock
  /-- at `cv.notify_one()` in `write` -/
  | writeNotify
  /-- at the lock of `m_state` in `flush` -/
  | flushState (k : Option (Buffer α))
  /-- at `m_out_samples_stop = 1` -/
  | flushStop (k : Option (Buffer α))
  /-- at `notify_one()` in `flush` -/
  | flushNotify (k : Option (Buffer α))
  /-- at the lock of `m_out_samples_mtx` in `flush` -/
  | flushLock (k : Option (Buffer α))
  /-- at `consume_all` -/
  | consume (k : Option (Buffer α))
  /-- at `m_out_samples_avail = 0` -/
  | zeroAvail (k : Option (Buffer α))
  /-- leaving `flush` -/
  | flushUnlock (k : Option (Buffer α))
  deriving DecidableEq

/-- The user thread holds `m_out_samples_mtx`. -/
def UserPc.holds : UserPc α → Bool
  | .assign _ | .writeUnlock | .consume _ | .zeroAvail _ | .flushUnlock _ => true
  | _ => false

/-- The user thread has found the buffer empty and comes to fill it. -/
def UserPc.fills : UserPc α → Bool
  | .bump _ | .writeLock _ | .assign _ => true
  | _ => false

/-- The user thread holds `m_state`. -/
def UserPc.holdsState : UserPc α → Bool
  | .flushStop _ | .flushNotify _ | .flushLock _ | .consume _ | .zeroAvail _
  | .flushUnlock _ => true
  | _ => false

/-- The owners of `m_out_samples_mtx`. -/
inductive Owner
  | thread
  | user
  deriving DecidableEq

/-- One channel. -/
structure State (α : Type*) (cap : ℕ) where
  m_out_samples_buf : List α
  m_out_samples_buf_cyclic : Bool
  m_out_samples_stop : ℤ
  /-- `uint32_t` -/
  m_out_samples_avail : ℕ
  m_out_samples_q : BoundedQueue α cap
  m_out_samples_mtx : Option Owner
  /-- the position of `it` in the buffer -/
  it : ℕ
  thread : Pc
  user : UserPc α
  /-- `run` has found `m_out_samples_stop` at 2 and comes to set it to 0 -/
  resuming : Bool
  /-- record: the buffers handed over so far -/
  written : List (Buffer α)
  /-- record: the samples taken from the queue so far -/
  popped : List α
  /-- record: a `flush` found a buffer, which is not dropped yet -/
  asked : Bool
  /-- record: the write thread took back the request of such a `flush` -/
  lost : Bool
  deriving DecidableEq

/-- A channel to which nothing was written. -/
def State.init (α : Type*) (cap : ℕ) : State α cap where
  m_out_samples_buf := []
  m_out_samples_buf_cyclic := false
  m_out_samples_stop := 0
  m_out_samples_avail := 0
  m_out_samples_q := .empty
  m_out_samples_mtx := none
  it := 0
  thread := .lock
  user := .idle
  resuming := false
  written := []
  popped := []
  asked := false
  lost := false

/-- One step of a thread. -/
inductive Act (α : Type*)
  /-- the next step of the write thread; `q.push` takes `k` samples -/
  | thread (k : ℕ)
  /-- `cv.wait` wakes up for no reason -/
  | wake
  /-- the user calls `write` -/
  | write (b : Buffer α)
  /-- the user calls `flush` -/
  | flush
  /-- the next step of the user thread -/
  | user
  /-- `write` gives up waiting and throws -/
  | timeout
  /-- a sample is taken from the queue to be encoded -/
  | pop
  /-- `off` sets `m_out_samples_stop` to 2 -/
  | off
  /-- `run` tests `m_out_samples_stop` -/
  | run
  /-- `run` sets it to 0 and notifies -/
  | resume
  deriving DecidableEq

/-- `cv.notify_one()`: only the write thread waits on the condition variable. -/
def State.notify (s : State α cap) : State α cap :=
  match s.thread with
  | .asleep => { s with thread := .woken }
  | _ => s

/-- The next step of the write thread. -/
def State.threadStep (k : ℕ) (s : State α cap) : Option (State α cap) :=
  match s.thread with
  | .lock =>
      if s.m_out_samples_mtx = none then
        some { s with m_out_samples_mtx := some .thread, thread := .test }
      else none
  | .test =>
      if s.m_out_samples_buf.length ≠ 0 ∨ s.m_out_samples_stop < 0 then
        some { s with thread := .checkExit }
      else some { s with m_out_samples_mtx := none, thread := .asleep }
  | .asleep => none
  | .woken =>
      if s.m_out_samples_mtx = none then
        some { s with m_out_samples_mtx := some .thread, thread := .test }
      else none
  | .checkExit =>
      if s.m_out_samples_stop < 0 then
        some { s with m_out_samples_mtx := none, thread := .exited }
      else some { s with thread := .reset }
  | .reset =>
      some { s with
        m_out_samples_stop := 0
        thread := .start
        asked := false
        lost := s.lost || s.asked }
  | .start => some { s with it := 0, thread := .loop }
  | .loop =>
      if s.it ≠ s.m_out_samples_buf.length then
        if s.it + k ≤ s.m_out_samples_buf.length then
          (s.m_out_samples_q.pushAll ((s.m_out_samples_buf.drop s.it).take k)).map fun q =>
            { s with m_out_samples_q := q, it := s.it + k, thread := .pauseTest }
        else none
      else some { s with thread := .again }
  | .pauseTest =>
      if s.m_out_samples_stop = 2 then some { s with thread := .paused }
      else some { s with thread := .stopTest }
  | .paused => if s.m_out_samples_stop ≠ 2 then some { s with thread := .loop } else none
  | .stopTest =>
      if s.m_out_samples_stop ≠ 0 then some { s with thread := .finish }
      else some { s with thread := .loop }
  | .again =>
      if s.m_out_samples_buf_cyclic then
        some { s with
          m_out_samples_avail := Counter.add 32 s.m_out_samples_avail s.m_out_samples_buf.length
          thread := .start }
      else some { s with thread := .finish }
  | .finish =>
      if s.m_out_samples_stop ≠ 0 ∨ ¬s.m_out_samples_buf_cyclic then
        some { s with m_out_samples_buf := [], asked := false, thread := .unlock }
      else some { s with thread := .unlock }
  | .unlock => some { s with m_out_samples_mtx := none, thread := .lock }
  | .exited => none

/-- The next step of the user thread. -/
def State.userStep (s : State α cap) : Option (State α cap) :=
  match s.user with
  | .idle => none
  | .waiting b =>
      if s.m_out_samples_buf.length = 0 then some { s with user := .bump b } else none
  | .bump b =>
      some { s with
        m_out_samples_avail := Counter.add 32 s.m_out_samples_avail b.samples.length
        user := .writeLock b }
  | .writeLock b =>
      if s.m_out_samples_mtx = none then
        some { s with m_out_samples_mtx := some .user, user := .assign b }
      else none
  | .assign b =>
      some { s with
        m_out_samples_buf := b.samples
        m_out_samples_buf_cyclic := b.cyclic
        written := s.written ++ [b]
        user := .writeUnlock }
  | .writeUnlock => some { s with m_out_samples_mtx := none, user := .writeNotify }
  | .writeNotify => some { s.notify with user := .idle }
  | .flushState k => some { s with user := .flushStop k }
  | .flushStop k =>
      some { s with
        m_out_samples_stop := 1
        asked := s.asked || !s.m_out_samples_buf.isEmpty
        user := .flushNotify k }
  | .flushNotify k => some { s.notify with user := .flushLock k }
  | .flushLock k =>
      if s.m_out_samples_mtx = none then
        some { s with m_out_samples_mtx := some .user, user := .consume k }
      else none
  | .consume k => some { s with m_out_samples_q := .empty, user := .zeroAvail k }
  | .zeroAvail k => some { s with m_out_samples_avail := 0, user := .flushUnlock k }
  | .flushUnlock k =>
      some { s with
        m_out_samples_mtx := none
        user := match k with
          | none => .idle
          | some b => .waiting b }

/-- A call of `write`, which begins with a `flush` if the last buffer was cyclic. -/
def State.callWrite (b : Buffer α) (s : State α cap) : Option (State α cap) :=
  match s.user with
  | .idle =>
      if s.m_out_samples_buf_cyclic then some { s with user := .flushState (some b) }
      else some { s with user := .waiting b }
  | _ => none

/-- The channel as a machine. -/
def machine (α : Type*) (cap : ℕ) : Machine (State α cap) (Act α) where
  step s
    | .thread k => s.threadStep k
    | .wake => if s.thread = .asleep then some { s with thread := .woken } else none
    | .write b => s.callWrite b
    | .flush =>
        match s.user with
        | .idle => some { s with user := .flushState none }
        | _ => none
    | .user => s.userStep
    | .timeout =>
        match s.user with
        | .waiting _ =>
            if s.m_out_samples_buf.length ≠ 0 then some { s with user := .idle } else none
        | _ => none
    | .pop =>
        if s.user.holdsState then none
        else
          s.m_out_samples_q.pop.map fun r =>
            { s with m_out_samples_q := r.2, popped := s.popped ++ [r.1] }
    | .off => some { s with m_out_samples_stop := 2 }
    | .run => if s.m_out_samples_stop = 2 then some { s with resuming := true } else some s
    | .resume =>
        if s.resuming then some { s.notify with m_out_samples_stop := 0, resuming := false }
        else none

/-! ### What the threads can do -/

/-- The steps of the write thread, each with its guard. -/
inductive ThreadStep (s : State α cap) : State α cap → Prop
  | take (hpc : s.thread = .lock ∨ s.thread = .woken) (hmtx : s.m_out_samples_mtx = none) :
      ThreadStep s { s with m_out_samples_mtx := some .thread, thread := .test }
  | found (hpc : s.thread = .test)
      (hfound : s.m_out_samples_buf ≠ [] ∨ s.m_out_samples_stop < 0) :
      ThreadStep s { s with thread := .checkExit }
  | sleep (hpc : s.thread = .test) (hbuf : s.m_out_samples_buf = []) :
      ThreadStep s { s with m_out_samples_mtx := none, thread := .asleep }
  | exit (hpc : s.thread = .checkExit) (hstop : s.m_out_samples_stop < 0) :
      ThreadStep s { s with m_out_samples_mtx := none, thread := .exited }
  | stay (hpc : s.thread = .checkExit) (hstop : 0 ≤ s.m_out_samples_stop) :
      ThreadStep s { s with thread := .reset }
  | reset (hpc : s.thread = .reset) :
      ThreadStep s { s with
        m_out_samples_stop := 0
        thread := .start
        asked := false
        lost := s.lost || s.asked }
  | start (hpc : s.thread = .start) : ThreadStep s { s with it := 0, thread := .loop }
  | push (hpc : s.thread = .loop) (k : ℕ) (q : BoundedQueue α cap)
      (hit : s.it ≠ s.m_out_samples_buf.length) (hk : s.it + k ≤ s.m_out_samples_buf.length)
      (hq : q.items = s.m_out_samples_q.items ++ (s.m_out_samples_buf.drop s.it).take k) :
      ThreadStep s { s with m_out_samples_q := q, it := s.it + k, thread := .pauseTest }
  | pushed (hpc : s.thread = .loop) (hit : s.it = s.m_out_samples_buf.length) :
      ThreadStep s { s with thread := .again }
  | pause (hpc : s.thread = .pauseTest) (hstop : s.m_out_samples_stop = 2) :
      ThreadStep s { s with thread := .paused }
  | unpaused (hpc : s.thread = .pauseTest) (hstop : s.m_out_samples_stop ≠ 2) :
      ThreadStep s { s with thread := .stopTest }
  | goOn (hpc : s.thread = .paused) (hstop : s.m_out_samples_stop ≠ 2) :
      ThreadStep s { s with thread := .loop }
  | stopped (hpc : s.thread = .stopTest) (hstop : s.m_out_samples_stop ≠ 0) :
      ThreadStep s { s with thread := .finish }
  | turn (hpc : s.thread = .stopTest) (hstop : s.m_out_samples_stop = 0) :
      ThreadStep s { s with thread := .loop }
  | wrap (hpc : s.thread = .again) (hcyclic : s.m_out_samples_buf_cyclic = true) (n : ℕ) :
      ThreadStep s { s with m_out_samples_avail := n, thread := .start }
  | done (hpc : s.thread = .again) (hcyclic : s.m_out_samples_buf_cyclic = false) :
      ThreadStep s { s with thread := .finish }
  | wipe (hpc : s.thread = .finish)
      (hwipe : s.m_out_samples_stop ≠ 0 ∨ s.m_out_samples_buf_cyclic = false) :
      ThreadStep s { s with m_out_samples_buf := [], asked := false, thread := .unlock }
  | keep (hpc : s.thread = .finish) (hstop : s.m_out_samples_stop = 0)
      (hcyclic : s.m_out_samples_buf_cyclic = true) :
      ThreadStep s { s with thread := .unlock }
  | unlock (hpc : s.thread = .unlock) :
      ThreadStep s { s with m_out_samples_mtx := none, thread := .lock }

theorem threadStep_cases {s t : State α cap} {k : ℕ} (h : s.threadStep k = some t) :
    ThreadStep s t := by
  rw [State.threadStep] at h
  split at h
  · rename_i hpc
    obtain ⟨hmtx, h⟩ := Option.ite_none_right_eq_some.mp h
    obtain rfl := Option.some.inj h
    exact .take (.inl hpc) hmtx
  · rename_i hpc
    split at h
    · rename_i hfound
      obtain rfl := Option.some.inj h
      exact .found hpc (hfound.imp_left fun hlen hnil => hlen (by rw [hnil]; rfl))
    · rename_i hnot
      obtain rfl := Option.some.inj h
      rw [not_or, not_not] at hnot
      exact .sleep hpc (List.length_eq_zero_iff.mp hnot.1)
  · exact nomatch h
  · rename_i hpc
    obtain ⟨hmtx, h⟩ := Option.ite_none_right_eq_some.mp h
    obtain rfl := Option.some.inj h
    exact .take (.inr hpc) hmtx
  · rename_i hpc
    split at h
    · rename_i hstop
      obtain rfl := Option.some.inj h
      exact .exit hpc hstop
    · rename_i hstop
      obtain rfl := Option.some.inj h
      exact .stay hpc (by omega)
  · rename_i hpc
    obtain rfl := Option.some.inj h
    exact .reset hpc
  · rename_i hpc
    obtain rfl := Option.some.inj h
    exact .start hpc
  · rename_i hpc
    split at h
    · rename_i hit
      obtain ⟨hk, h⟩ := Option.ite_none_right_eq_some.mp h
      obtain ⟨q, hq, rfl⟩ := Option.map_eq_some_iff.mp h
      exact .push hpc k q hit hk (BoundedQueue.pushAll_eq_some_iff.mp hq).2
    · rename_i hit
      obtain rfl := Option.some.inj h
      exact .pushed hpc (not_not.mp hit)
  · rename_i hpc
    split at h
    · rename_i hstop
      obtain rfl := Option.some.inj h
      exact .pause hpc hstop
    · rename_i hstop
      obtain rfl := Option.some.inj h
      exact .unpaused hpc hstop
  · rename_i hpc
    obtain ⟨hstop, h⟩ := Option.ite_none_right_eq_some.mp h
    obtain rfl := Option.some.inj h
    exact .goOn hpc hstop
  · rename_i hpc
    split at h
    · rename_i hstop
      obtain rfl := Option.some.inj h
      exact .stopped hpc hstop
    · rename_i hstop
      obtain rfl := Option.some.inj h
      exact .turn hpc (not_not.mp hstop)
  · rename_i hpc
    split at h
    · rename_i hcyclic
      obtain rfl := Option.some.inj h
      exact .wrap hpc hcyclic _
    · rename_i hcyclic
      obtain rfl := Option.some.inj h
      exact .done hpc (Bool.eq_false_iff.mpr hcyclic)
  · rename_i hpc
    split at h
    · rename_i hwipe
      obtain rfl := Option.some.inj h
      exact .wipe hpc (hwipe.imp_right Bool.eq_false_iff.mpr)
    · rename_i hnot
      obtain rfl := Option.some.inj h
      rw [not_or, not_not, not_not] at hnot
      exact .keep hpc hnot.1 hnot.2
  · rename_i hpc
    obtain rfl := Option.some.inj h
    exact .unlock hpc
  · exact nomatch h

/-- The steps of the user thread, each with its guard. -/
inductive UserStep (s : State α cap) : State α cap → Prop
  | free (b : Buffer α) (hpc : s.user = .waiting b) (hbuf : s.m_out_samples_buf = []) :
      UserStep s { s with user := .bump b }
  | bump (b : Buffer α) (hpc : s.user = .bump b) (n : ℕ) :
      UserStep s { s with m_out_samples_avail := n, user := .writeLock b }
  | writeLock (b : Buffer α) (hpc : s.user = .writeLock b)
      (hmtx : s.m_out_samples_mtx = none) :
      UserStep s { s with m_out_samples_mtx := some .user, user := .assign b }
  | assign (b : Buffer α) (hpc : s.user = .assign b) :
      UserStep s { s with
        m_out_samples_buf := b.samples
        m_out_samples_buf_cyclic := b.cyclic
        written := s.written ++ [b]
        user := .writeUnlock }
  | writeUnlock (hpc : s.user = .writeUnlock) :
      UserStep s { s with m_out_samples_mtx := none, user := .writeNotify }
  | writeNotify (hpc : s.user = .writeNotify) : UserStep s { s.notify with user := .idle }
  | flushState (k : Option (Buffer α)) (hpc : s.user = .flushState k) :
      UserStep s { s with user := .flushStop k }
  | flushStop (k : Option (Buffer α)) (hpc : s.user = .flushStop k) :
      UserStep s { s with
        m_out_samples_stop := 1
        asked := s.asked || !s.m_out_samples_buf.isEmpty
        user := .flushNotify k }
  | flushNotify (k : Option (Buffer α)) (hpc : s.user = .flushNotify k) :
      UserStep s { s.notify with user := .flushLock k }
  | flushLock (k : Option (Buffer α)) (hpc : s.user = .flushLock k)
      (hmtx : s.m_out_samples_mtx = none) :
      UserStep s { s with m_out_samples_mtx := some .user, user := .consume k }
  | consume (k : Option (Buffer α)) (hpc : s.user = .consume k) :
      UserStep s { s with m_out_samples_q := .empty, user := .zeroAvail k }
  | zeroAvail (k : Option (Buffer α)) (hpc : s.user = .zeroAvail k) :
      UserStep s { s with m_out_samples_avail := 0, user := .flushUnlock k }
  | flushed (hpc : s.user = .flushUnlock none) :
      UserStep s { s with m_out_samples_mtx := none, user := .idle }
  | write (b : Buffer α) (hpc : s.user = .flushUnlock (some b)) :
      UserStep s { s with m_out_samples_mtx := none, user := .waiting b }

theorem userStep_cases {s t : State α cap} (h : s.userStep = some t) : UserStep s t := by
  rw [State.userStep] at h
  split at h
  · exact nomatch h
  · rename_i b hpc
    obtain ⟨hbuf, h⟩ := Option.ite_none_right_eq_some.mp h
    obtain rfl := Option.some.inj h
    exact .free b hpc (List.length_eq_zero_iff.mp hbuf)
  · rename_i b hpc
    obtain rfl := Option.some.inj h
    exact .bump b hpc _
  · rename_i b hpc
    obtain ⟨hmtx, h⟩ := Option.ite_none_right_eq_some.mp h
    obtain rfl := Option.some.inj h
    exact .writeLock b hpc hmtx
  · rename_i b hpc
    obtain rfl := Option.some.inj h
    exact .assign b hpc
  · rename_i hpc
    obtain rfl := Option.some.inj h
    exact .writeUnlock hpc
  · rename_i hpc
    obtain rfl := Option.some.inj h
    exact .writeNotify hpc
  · rename_i k hpc
    obtain rfl := Option.some.inj h
    exact .flushState k hpc
  · rename_i k hpc
    obtain rfl := Option.some.inj h
    exact .flushStop k hpc
  · rename_i k hpc
    obtain rfl := Option.some.inj h
    exact .flushNotify k hpc
  · rename_i k hpc
    obtain ⟨hmtx, h⟩ := Option.ite_none_right_eq_some.mp h
    obtain rfl := Option.some.inj h
    exact .flushLock k hpc hmtx
  · rename_i k hpc
    obtain rfl := Option.some.inj h
    exact .consume k hpc
  · rename_i k hpc
    obtain rfl := Option.some.inj h
    exact .zeroAvail k hpc
  · rename_i k hpc
    obtain rfl := Option.some.inj h
    cases k with
    | none => exact .flushed hpc
    | some b => exact .write b hpc

/-- The steps of the machine, each with its guard. -/
inductive Step (s : State α cap) : Act α → State α cap → Prop
  | thread {t : State α cap} (k : ℕ) (h : ThreadStep s t) : Step s (.thread k) t
  | user {t : State α cap} (h : UserStep s t) : Step s .user t
  | wake (hpc : s.thread = .asleep) : Step s .wake { s with thread := .woken }
  | write (b : Buffer α) (hpc : s.user = .idle) (hcyclic : s.m_out_samples_buf_cyclic = false) :
      Step s (.write b) { s with user := .waiting b }
  | writeFlush (b : Buffer α) (hpc : s.user = .idle)
      (hcyclic : s.m_out_samples_buf_cyclic = true) :
      Step s (.write b) { s with user := .flushState (some b) }
  | flush (hpc : s.user = .idle) : Step s .flush { s with user := .flushState none }
  | timeout (b : Buffer α) (hpc : s.user = .waiting b) : Step s .timeout { s with user := .idle }
  | pop (x : α) (q : BoundedQueue α cap) (hstate : s.user.holdsState = false)
      (hq : s.m_out_samples_q.items = x :: q.items) :
      Step s .pop { s with m_out_samples_q := q, popped := s.popped ++ [x] }
  | off : Step s .off { s with m_out_samples_stop := 2 }
  | run (resuming : Bool) : Step s .run { s with resuming := resuming }
  | resume (hresuming : s.resuming = true) :
      Step s .resume { s.notify with m_out_samples_stop := 0, resuming := false }

theorem step_cases {s t : State α cap} {a : Act α} (h : (machine α cap).step s a = some t) :
    Step s a t := by
  cases a with
  | thread k => exact .thread k (threadStep_cases h)
  | wake =>
      obtain ⟨hpc, h⟩ := Option.ite_none_right_eq_some.mp h
      obtain rfl := Option.some.inj h
      exact .wake hpc
  | write b =>
      simp only [machine, State.callWrite] at h
      split at h
      · rename_i hpc
        split at h
        · rename_i hcyclic
          obtain rfl := Option.some.inj h
          exact .writeFlush b hpc hcyclic
        · rename_i hcyclic
          obtain rfl := Option.some.inj h
          exact .write b hpc (Bool.eq_false_iff.mpr hcyclic)
      · exact nomatch h
  | flush =>
      simp only [machine] at h
      split at h
      · rename_i hpc
        obtain rfl := Option.some.inj h
        exact .flush hpc
      · exact nomatch h
  | user => exact .user (userStep_cases h)
  | timeout =>
      simp only [machine] at h
      split at h
      · rename_i b hpc
        obtain ⟨-, h⟩ := Option.ite_none_right_eq_some.mp h
        obtain rfl := Option.some.inj h
        exact .timeout b hpc
      · exact nomatch h
  | pop =>
      simp only [machine] at h
      split at h
      · exact nomatch h
      · rename_i hstate
        obtain ⟨r, hr, rfl⟩ := Option.map_eq_some_iff.mp h
        exact .pop r.1 r.2 (Bool.eq_false_iff.mpr hstate)
          (BoundedQueue.pop_eq_some_iff.mp hr)
  | off =>
      obtain rfl := Option.some.inj h
      exact .off
  | run =>
      simp only [machine] at h
      split at h
      · obtain rfl := Option.some.inj h
        exact .run true
      · obtain rfl := Option.some.inj h
        exact .run s.resuming
  | resume =>
      obtain ⟨hresuming, h⟩ := Option.ite_none_right_eq_some.mp h
      obtain rfl := Option.some.inj h
      exact .resume hresuming

/-! ### What holds in every run -/

/-- **Sound**: the mutex has the owner that thinks so, the write thread is busy with a buffer
only while there is one, and the user replaces only an empty one. -/
structure Sound (s : State α cap) : Prop where
  thread : s.thread.holds = true ↔ s.m_out_samples_mtx = some .thread
  user : s.user.holds = true ↔ s.m_out_samples_mtx = some .user
  stop : 0 ≤ s.m_out_samples_stop
  fresh : s.user.fills = true → s.m_out_samples_buf = []
  busy : s.thread.busy = true → s.m_out_samples_buf ≠ []
  position : s.thread.begun = true → s.it ≤ s.m_out_samples_buf.length
  running : s.thread ≠ .exited

theorem Sound.init : Sound (.init α cap) where
  thread := by simp [State.init, Pc.holds]
  user := by simp [State.init, UserPc.holds]
  stop := Int.le_refl 0
  fresh h := nomatch h
  busy h := nomatch h
  position h := nomatch h
  running := by simp [State.init]

/-- While the user holds the mutex the write thread is not busy. -/
theorem Sound.not_busy {s : State α cap} (hs : Sound s) (h : s.user.holds = true) :
    s.thread.busy = false := by
  have hmtx := hs.user.mp h
  have hfree : ¬s.thread.holds = true := fun hthread => by
    rw [hs.thread.mp hthread] at hmtx
    exact nomatch hmtx
  cases hpc : s.thread <;> simp_all [Pc.holds, Pc.busy, Pc.begun]

theorem Sound.threadStep {s t : State α cap} (hs : Sound s) (h : ThreadStep s t) : Sound t := by
  obtain ⟨hthread, huser, hstop, hfresh, hbusy, hpos, hrunning⟩ := hs
  cases h with
  | take hpc hmtx =>
      rcases hpc with hpc | hpc <;>
      · constructor <;> simp_all [Pc.holds, Pc.busy, Pc.begun]
  | found hpc hfound =>
      have hne : s.m_out_samples_buf ≠ [] := hfound.resolve_right (by omega)
      constructor <;> simp_all [Pc.holds, Pc.busy, Pc.begun]
  | exit hpc hexit => omega
  | _ => constructor <;> simp_all [Pc.holds, Pc.busy, Pc.begun]

/-- A notification is of no consequence but to a thread asleep. -/
theorem notify_cases (s : State α cap) :
    s.notify = s ∨ s.thread = .asleep ∧ s.notify = { s with thread := .woken } := by
  rw [State.notify]
  split
  · rename_i hpc
    exact .inr ⟨hpc, rfl⟩
  · exact .inl rfl

theorem Sound.woken {s : State α cap} (hs : Sound s) (hpc : s.thread = .asleep) :
    Sound { s with thread := .woken } := by
  obtain ⟨hthread, huser, hstop, hfresh, hbusy, hpos, hrunning⟩ := hs
  constructor <;> simp_all [Pc.holds, Pc.busy, Pc.begun]

theorem Sound.notify {s : State α cap} (hs : Sound s) : Sound s.notify := by
  rcases notify_cases s with heq | ⟨hpc, heq⟩
  · rw [heq]
    exact hs
  · rw [heq]
    exact hs.woken hpc

@[simp] theorem notify_user (s : State α cap) : s.notify.user = s.user := by
  rw [State.notify]
  split <;> rfl

/-- The user thread moves on without touching the buffer or the mutex. -/
theorem Sound.goto {s : State α cap} (hs : Sound s) {user : UserPc α}
    (hholds : user.holds = s.user.holds)
    (hfills : user.fills = true → s.m_out_samples_buf = []) : Sound { s with user := user } where
  thread := hs.thread
  user := by simpa only [hholds] using hs.user
  stop := hs.stop
  fresh := hfills
  busy := hs.busy
  position := hs.position
  running := hs.running

theorem Sound.userStep {s t : State α cap} (hs : Sound s) (h : UserStep s t) : Sound t := by
  cases h with
  | free b hpc hbuf => exact hs.goto (by rw [hpc]; rfl) fun _ => hbuf
  | writeNotify hpc =>
      exact hs.notify.goto (by rw [notify_user, hpc]; rfl) fun h => (nomatch h)
  | flushNotify k hpc =>
      exact hs.notify.goto (by rw [notify_user, hpc]; rfl) fun h => (nomatch h)
  | flushState k hpc => exact hs.goto (by rw [hpc]; rfl) fun h => (nomatch h)
  | assign b hpc =>
      have hidle := hs.not_busy (by rw [hpc]; rfl)
      have hnot : ¬s.thread.begun = true := fun hbegun => by
        cases hthread : s.thread <;> simp_all [Pc.busy, Pc.begun]
      obtain ⟨hthread, huser, hstop, hfresh, hbusy, hpos, hrunning⟩ := hs
      constructor <;> simp_all [UserPc.holds, UserPc.fills]
  | _ =>
      obtain ⟨hthread, huser, hstop, hfresh, hbusy, hpos, hrunning⟩ := hs
      constructor <;> simp_all [UserPc.holds, UserPc.fills]

/-- **The step lemma** for what holds in every run. -/
theorem Sound.step {s t : State α cap} {a : Act α} (hs : Sound s)
    (h : (machine α cap).step s a = some t) : Sound t := by
  cases step_cases h with
  | thread k h => exact hs.threadStep h
  | user h => exact hs.userStep h
  | wake hpc => exact hs.woken hpc
  | write b hpc hcyclic => exact hs.goto (by rw [hpc]; rfl) fun h => (nomatch h)
  | writeFlush b hpc hcyclic => exact hs.goto (by rw [hpc]; rfl) fun h => (nomatch h)
  | flush hpc => exact hs.goto (by rw [hpc]; rfl) fun h => (nomatch h)
  | timeout b hpc => exact hs.goto (by rw [hpc]; rfl) fun h => (nomatch h)
  | pop x q hstate hq => exact ⟨hs.thread, hs.user, hs.stop, hs.fresh, hs.busy, hs.position,
      hs.running⟩
  | off => exact ⟨hs.thread, hs.user, (by decide : (0 : ℤ) ≤ 2), hs.fresh, hs.busy, hs.position,
      hs.running⟩
  | run resuming => exact ⟨hs.thread, hs.user, hs.stop, hs.fresh, hs.busy, hs.position,
      hs.running⟩
  | resume hresuming =>
      have hs := hs.notify
      exact ⟨hs.thread, hs.user, Int.le_refl 0, hs.fresh, hs.busy, hs.position, hs.running⟩

end Libsmu.WriteThread
