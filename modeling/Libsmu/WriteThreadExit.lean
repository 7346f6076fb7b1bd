import Libsmu.WriteThread

/-!
# The End of the Write Thread

`~M1000_Device` sets `m_out_samples_stop` to -1, notifies the condition variable and joins the
write thread. It does not take the mutex of the write thread for this, so that both may come
too early: a write thread that has just found a buffer takes the -1 back with its `stop = 0`,
and one that has tested the condition of `cv.wait` and is not asleep yet (`Wait.dozing`) does
not hear the notification.

The states of a channel are those of `WriteThread`, with `cv.wait` in its single steps: the
condition is tested, and then the thread goes to sleep, which a notification ends, or a
spurious wake-up. No user thread is in a call any more.

## Main results

* `Live.rank_lt`, `Live.exists_step`: a thread that has heard is on its way to the exit.
* `Untold.step`: one that was not told never exits; `Deaf.step`: nor does one that has not
  heard, unless it wakes up by itself.
* `join_returns_iff`: in every interleaving `join` can return exactly when the -1 is not taken
  back, and without a spurious wake-up exactly when the notification does not fall between the
  test and the sleep, either.
-/

namespace Libsmu.WriteThreadExit

open WriteThread (Pc Sound)

variable {α : Type*} {cap : ℕ}

/-- How far the write thread is in a `cv.wait`. -/
inductive Wait
  /-- about to test the condition, or in none -/
  | awake
  /-- the condition does not hold, and the thread is not asleep yet -/
  | dozing
  /-- asleep in the `cv.wait` of a pause -/
  | asleep
  deriving DecidableEq

/-- Where `~M1000_Device` stands. -/
inductive Dtor
  /-- at `m_out_samples_stop = -1` -/
  | stop
  /-- at `notify_one()` -/
  | notify
  /-- in `join()` -/
  | join
  /-- the thread is joined -/
  | done
  deriving DecidableEq

/-- A channel of a device that is destroyed. -/
structure State (α : Type*) (cap : ℕ) where
  chan : WriteThread.State α cap
  wait : Wait
  dtor : Dtor
  deriving DecidableEq

/-- One step of a thread. -/
inductive Act
  /-- the next step of the write thread; `q.push` takes `k` samples -/
  | thread (k : ℕ)
  /-- a sample is taken from the queue -/
  | pop
  /-- the write thread wakes up in a `cv.wait` without a notification -/
  | wake
  /-- the next step of `~M1000_Device` -/
  | dtor
  deriving DecidableEq

/-- The next step of the write thread. -/
def State.threadStep (k : ℕ) (s : State α cap) : Option (State α cap) :=
  match s.chan.thread with
  | .test =>
      match s.wait with
      | .awake =>
          if s.chan.m_out_samples_buf.length ≠ 0 ∨ s.chan.m_out_samples_stop < 0 then
            some { s with chan := { s.chan with thread := .checkExit } }
          else some { s with wait := .dozing }
      | .dozing =>
          some { s with
            chan := { s.chan with m_out_samples_mtx := none, thread := .asleep }
            wait := .awake }
      | .asleep => none
  | .paused =>
      match s.wait with
      | .awake =>
          if s.chan.m_out_samples_stop ≠ 2 then
            some { s with chan := { s.chan with thread := .loop } }
          else some { s with wait := .dozing }
      | .dozing => some { s with wait := .asleep }
      | .asleep => none
  | _ => (s.chan.threadStep k).map fun c => { s with chan := c }

/-- The write thread is asleep in a `cv.wait`. -/
def State.Sleeping (s : State α cap) : Prop :=
  s.chan.thread = .asleep ∨ s.chan.thread = .paused ∧ s.wait = .asleep

instance (s : State α cap) : Decidable s.Sleeping := inferInstanceAs (Decidable (_ ∨ _))

/-- `notify_one()`, which wakes the write thread only if it is asleep. -/
def State.notify (s : State α cap) : State α cap :=
  match s.chan.thread, s.wait with
  | .asleep, _ => { s with chan := { s.chan with thread := .woken } }
  | .paused, .asleep => { s with wait := .awake }
  | _, _ => s

/-- The next step of `~M1000_Device`. -/
def State.dtorStep (s : State α cap) : Option (State α cap) :=
  match s.dtor with
  | .stop => some { s with chan := { s.chan with m_out_samples_stop := -1 }, dtor := .notify }
  | .notify => some { s.notify with dtor := .join }
  | .join => if s.chan.thread = .exited then some { s with dtor := .done } else none
  | .done => none

/-- The channel and the destructor as one machine. -/
def machine (α : Type*) (cap : ℕ) : Machine (State α cap) Act where
  step s
    | .thread k => s.threadStep k
    | .pop => s.chan.m_out_samples_q.pop.map fun r =>
        { s with chan :=
          { s.chan with
            m_out_samples_q := r.2
            popped := s.chan.popped ++ [r.1] } }
    | .wake => if s.Sleeping then some s.notify else none
    | .dtor => s.dtorStep

/-- **Told**: the write thread does not take the -1 back at once. -/
def Told (s : State α cap) : Act → Prop
  | .thread _ | .pop | .wake => True
  | .dtor => s.dtor = .stop → s.chan.thread ≠ .reset

/-- **Heard**: nor is it dozing when it is notified. -/
def Heard (s : State α cap) : Act → Prop
  | .thread _ | .pop | .wake => True
  | .dtor => (s.dtor = .stop → s.chan.thread ≠ .reset) ∧ (s.dtor = .notify → s.wait ≠ .dozing)

/-- No spurious wake-up comes after the notification. -/
def Unstirred (s : State α cap) : Act → Prop
  | .thread _ | .pop | .dtor => True
  | .wake => s.dtor ≠ .join

instance (s : State α cap) (a : Act) : Decidable (Told s a) :=
  match a with
  | .thread _ | .pop | .wake => isTrue trivial
  | .dtor => inferInstanceAs (Decidable (_ → _))

instance (s : State α cap) (a : Act) : Decidable (Heard s a) :=
  match a with
  | .thread _ | .pop | .wake => isTrue trivial
  | .dtor => inferInstanceAs (Decidable (_ ∧ _))

instance (s : State α cap) (a : Act) : Decidable (Unstirred s a) :=
  match a with
  | .thread _ | .pop | .dtor => isTrue trivial
  | .wake => inferInstanceAs (Decidable (_ ≠ _))

/-- What is heard was told. -/
theorem Heard.told {s : State α cap} {a : Act} (h : Heard s a) : Told s a := by
  cases a with
  | thread k | pop | wake => trivial
  | dtor => exact h.1

/-! ### What a step does -/

/-- The steps of the write thread, each with its guard. -/
inductive ThreadStep (s : State α cap) : State α cap → Prop
  | found (hpc : s.chan.thread = .test) (hwait : s.wait = .awake)
      (hfound : s.chan.m_out_samples_buf ≠ [] ∨ s.chan.m_out_samples_stop < 0) :
      ThreadStep s { s with chan := { s.chan with thread := .checkExit } }
  | doze (hpc : s.chan.thread = .test) (hwait : s.wait = .awake)
      (hstop : 0 ≤ s.chan.m_out_samples_stop) : ThreadStep s { s with wait := .dozing }
  | sleep (hpc : s.chan.thread = .test) (hwait : s.wait = .dozing) :
      ThreadStep s { s with
        chan := { s.chan with m_out_samples_mtx := none, thread := .asleep }
        wait := .awake }
  | goOn (hpc : s.chan.thread = .paused) (hwait : s.wait = .awake)
      (hstop : s.chan.m_out_samples_stop ≠ 2) :
      ThreadStep s { s with chan := { s.chan with thread := .loop } }
  | dozePaused (hpc : s.chan.thread = .paused) (hwait : s.wait = .awake)
      (hstop : s.chan.m_out_samples_stop = 2) : ThreadStep s { s with wait := .dozing }
  | sleepPaused (hpc : s.chan.thread = .paused) (hwait : s.wait = .dozing) :
      ThreadStep s { s with wait := .asleep }
  | other {c : WriteThread.State α cap} (htest : s.chan.thread ≠ .test)
      (hpaused : s.chan.thread ≠ .paused) (h : WriteThread.ThreadStep s.chan c) :
      ThreadStep s { s with chan := c }

/-- The steps of the write thread are among these. -/
theorem threadStep_cases {s t : State α cap} {k : ℕ} (h : s.threadStep k = some t) :
    ThreadStep s t := by
  rw [State.threadStep] at h
  split at h
  · rename_i hpc
    split at h
    · rename_i hwait
      split at h
      · rename_i hfound
        obtain rfl := Option.some.inj h
        exact .found hpc hwait (hfound.imp_left fun hlen hnil => hlen (by rw [hnil]; rfl))
      · rename_i hnot
        obtain rfl := Option.some.inj h
        exact .doze hpc hwait (by omega)
    · rename_i hwait
      obtain rfl := Option.some.inj h
      exact .sleep hpc hwait
    · cases h
  · rename_i hpc
    split at h
    · rename_i hwait
      split at h
      · rename_i hstop
        obtain rfl := Option.some.inj h
        exact .goOn hpc hwait hstop
      · rename_i hstop
        obtain rfl := Option.some.inj h
        exact .dozePaused hpc hwait (not_not.mp hstop)
    · rename_i hwait
      obtain rfl := Option.some.inj h
      exact .sleepPaused hpc hwait
    · cases h
  · rename_i htest hpaused
    obtain ⟨c, hc, rfl⟩ := Option.map_eq_some_iff.mp h
    exact .other htest hpaused (WriteThread.threadStep_cases hc)

/-! ### A thread that hears -/

/-- The mutex is free or the write thread's, which is busy with a buffer only while there is one,
unless it is about to exit. -/
structure Going (c : WriteThread.State α cap) : Prop where
  thread : c.thread.holds = true ↔ c.m_out_samples_mtx = some .thread
  user : c.m_out_samples_mtx ≠ some .user
  busy : c.thread.busy = true →
    c.thread = .checkExit ∧ c.m_out_samples_stop < 0 ∨ c.m_out_samples_buf ≠ []
  position : c.thread.begun = true → c.it ≤ c.m_out_samples_buf.length

/-- Each of them keeps the mutex and the buffer in order. -/
theorem Going.threadStep {c d : WriteThread.State α cap} (h : Going c)
    (hstep : WriteThread.ThreadStep c d) : Going d := by
  obtain ⟨hthread, huser, hbusy, hposition⟩ := h
  cases hstep with
  | take hpc hmtx =>
      rcases hpc with hpc | hpc <;>
      · constructor <;> simp_all [Pc.holds, Pc.busy, Pc.begun]
  | found hpc hfound => constructor <;> simp_all [Pc.holds, Pc.busy, Pc.begun, or_comm]
  | stay hpc hstay =>
      have hbuf := (hbusy (by rw [hpc]; rfl)).resolve_left fun hexit =>
        (Int.not_lt.mpr hstay) hexit.2
      constructor <;> simp_all [Pc.holds, Pc.busy, Pc.begun]
  | _ => constructor <;> simp_all [Pc.holds, Pc.busy, Pc.begun]

/-- Where the stop comes from that the write thread leaves, and where it can exit and sleep. -/
theorem threadStep_frame {c d : WriteThread.State α cap} (h : WriteThread.ThreadStep c d) :
    d.m_out_samples_stop = (if c.thread = .reset then 0 else c.m_out_samples_stop) ∧
      c.thread ≠ .exited ∧ (d.thread = .asleep → c.thread = .test) ∧
      (d.thread = .exited → c.m_out_samples_stop < 0) ∧
      (d.thread = .reset → 0 ≤ c.m_out_samples_stop) := by
  cases h with
  | take hpc hmtx => rcases hpc with hpc | hpc <;> simp [hpc]
  | exit hpc hstop => simp [hpc, hstop]
  | stay hpc hstop => simp [hpc, hstop]
  | sleep hpc hbuf | found hpc hfound | reset hpc | start hpc
  | push hpc k q hit hk hq | pushed hpc hit | pause hpc hstop | unpaused hpc hstop
  | goOn hpc hstop | stopped hpc hstop | turn hpc hstop | wrap hpc hcyclic n | done hpc hcyclic
  | wipe hpc hwipe | keep hpc hstop hcyclic | unlock hpc => simp [hpc]

/-- A thread that is not dozing and not asleep is awake. -/
theorem awake_of_not {w : Wait} (hdozing : w ≠ .dozing) (hasleep : w ≠ .asleep) : w = .awake := by
  cases w with
  | awake => rfl
  | dozing => exact absurd rfl hdozing
  | asleep => exact absurd rfl hasleep

/-- **Stopping**: the write thread is not told yet that it is to exit, or finds it out as soon as
it is awake. -/
structure Stopping (s : State α cap) : Prop where
  going : Going s.chan
  dozing : s.wait = .dozing → s.chan.thread = .test ∨ s.chan.thread = .paused
  asleep : s.wait = .asleep → s.chan.thread = .paused
  before : s.dtor = .stop → 0 ≤ s.chan.m_out_samples_stop ∧ s.chan.thread ≠ .exited
  told : s.dtor = .notify ∨ s.dtor = .join →
    s.chan.m_out_samples_stop = -1 ∧ s.chan.thread ≠ .reset
  joined : s.dtor = .done → s.chan.thread = .exited

/-- **Live**: and once it is notified it is awake. -/
structure Live (s : State α cap) : Prop extends Stopping s where
  heard : s.dtor = .join → s.chan.thread ≠ .asleep ∧ s.wait = .awake

/-- A device on which nobody is in a call any more. -/
theorem Live.start {c : WriteThread.State α cap} (hs : Sound c) (hidle : c.user = .idle)
    {wait : Wait} (hdozing : wait = .dozing → c.thread = .test ∨ c.thread = .paused)
    (hasleep : wait = .asleep → c.thread = .paused) : Live ⟨c, wait, .stop⟩ where
  going :=
    { thread := hs.thread
      user hmtx := by
        have hholds := hs.user.mpr hmtx
        rw [hidle] at hholds
        cases hholds
      busy h := .inr (hs.busy h)
      position := hs.position }
  dozing := hdozing
  asleep := hasleep
  before _ := ⟨hs.stop, hs.running⟩
  told h := by simp at h
  heard h := by cases h
  joined h := by cases h

/-- A step of the write thread keeps it on the way. -/
theorem Stopping.threadStep {s t : State α cap} (h : Stopping s) (hstep : ThreadStep s t) :
    Stopping t := by
  obtain ⟨hgoing, hdozing, hasleep, hbefore, htold, hjoined⟩ := h
  cases hstep with
  | found hpc hwait hfound =>
      exact ⟨hgoing.threadStep (.found hpc hfound), by simp [hwait], by simp [hwait],
        fun hdtor => ⟨(hbefore hdtor).1, by simp⟩, fun hdtor => ⟨(htold hdtor).1, by simp⟩,
        fun hdtor => by simp [hpc] at hjoined; exact absurd hdtor hjoined⟩
  | goOn hpc hwait hstop =>
      exact ⟨hgoing.threadStep (.goOn hpc hstop), by simp [hwait], by simp [hwait],
        fun hdtor => ⟨(hbefore hdtor).1, by simp⟩, fun hdtor => ⟨(htold hdtor).1, by simp⟩,
        fun hdtor => by simp [hpc] at hjoined; exact absurd hdtor hjoined⟩
  | doze hpc hwait hstop => exact ⟨hgoing, fun _ => .inl hpc, by simp, hbefore, htold, hjoined⟩
  | dozePaused hpc hwait hstop =>
      exact ⟨hgoing, fun _ => .inr hpc, by simp, hbefore, htold, hjoined⟩
  | sleep hpc hwait =>
      refine ⟨⟨by simp [Pc.holds], by simp, by simp [Pc.busy, Pc.begun], by simp [Pc.begun]⟩,
        by simp, by simp, fun hdtor => ⟨(hbefore hdtor).1, by simp⟩,
        fun hdtor => ⟨(htold hdtor).1, by simp⟩, fun hdtor => ?_⟩
      have hexited := hjoined hdtor
      rw [hpc] at hexited
      cases hexited
  | sleepPaused hpc hwait => exact ⟨hgoing, by simp, fun _ => hpc, hbefore, htold, hjoined⟩
  | other htest hpaused hstep =>
      obtain ⟨hstop, hrunning, -, hexits, hresets⟩ := threadStep_frame hstep
      have hawake : s.wait = .awake := awake_of_not
        (fun hwait => (hdozing hwait).elim htest hpaused) fun hwait => hpaused (hasleep hwait)
      refine ⟨hgoing.threadStep hstep, by simp [hawake], by simp [hawake], fun hdtor => ?_,
        fun hdtor => ?_, fun hdtor => absurd (hjoined hdtor) hrunning⟩
      · have hnonneg := (hbefore hdtor).1
        refine ⟨?_, fun hexited => ?_⟩
        · rw [hstop]
          split <;> omega
        · have hneg := hexits hexited
          omega
      · obtain ⟨hgiven, hreset⟩ := htold hdtor
        rw [hstop, if_neg hreset]
        refine ⟨hgiven, fun hback => ?_⟩
        have hnonneg := hresets hback
        omega

/-- A thread that has heard does not fall asleep again. -/
theorem Live.threadStep {s t : State α cap} (h : Live s) (hstep : ThreadStep s t) : Live t := by
  refine ⟨h.toStopping.threadStep hstep, fun hjoin => ?_⟩
  cases hstep with
  | found hpc hwait hfound | goOn hpc hwait hstop => exact ⟨by simp, hwait⟩
  | doze hpc hwait hstop | dozePaused hpc hwait hstop =>
      have hgiven := (h.told (.inr hjoin)).1
      omega
  | sleep hpc hwait | sleepPaused hpc hwait =>
      have hawake := (h.heard hjoin).2
      rw [hwait] at hawake
      cases hawake
  | other htest hpaused hstep =>
      exact ⟨fun hsleeps => htest ((threadStep_frame hstep).2.2.1 hsleeps), (h.heard hjoin).2⟩

/-- Waking up changes nothing else. -/
theorem Stopping.notify {s : State α cap} (h : Stopping s) : Stopping s.notify := by
  obtain ⟨hgoing, hdozing, hasleep, hbefore, htold, hjoined⟩ := h
  rw [State.notify]
  split
  · rename_i hpc
    obtain ⟨hthread, huser, -, -⟩ := hgoing
    rw [hpc] at hthread
    refine ⟨⟨hthread, huser, by simp [Pc.busy, Pc.begun], by simp [Pc.begun]⟩, fun hwait => ?_,
      fun hwait => ?_, fun hdtor => ⟨(hbefore hdtor).1, by simp⟩,
      fun hdtor => ⟨(htold hdtor).1, by simp⟩, fun hdtor => ?_⟩
    · rcases hdozing hwait with h | h <;> rw [hpc] at h <;> cases h
    · have hpaused := hasleep hwait
      rw [hpc] at hpaused
      cases hpaused
    · have hexited := hjoined hdtor
      rw [hpc] at hexited
      cases hexited
  · exact ⟨hgoing, by simp, by simp, hbefore, htold, hjoined⟩
  · exact ⟨hgoing, hdozing, hasleep, hbefore, htold, hjoined⟩

/-- A thread that is not dozing is awake after that. -/
theorem Stopping.awake_of_notify {s : State α cap} (h : Stopping s) (hwait : s.wait ≠ .dozing) :
    s.notify.chan.thread ≠ .asleep ∧ s.notify.wait = .awake := by
  rw [State.notify]
  split
  · rename_i hpc
    have hawake := awake_of_not hwait fun hasleep => by
      have hpaused := h.asleep hasleep
      rw [hpc] at hpaused
      cases hpaused
    exact ⟨by simp, hawake⟩
  · rename_i hpc hpaused
    exact ⟨by simp [hpc], rfl⟩
  · rename_i hnot hpaused
    exact ⟨hnot, awake_of_not hwait fun hasleep => hpaused (h.asleep hasleep) hasleep⟩

/-- Waking up leaves the destructor where it is. -/
@[simp] theorem notify_dtor (s : State α cap) : s.notify.dtor = s.dtor := by
  rw [State.notify]
  split <;> rfl

/-- **The step lemma** of a run in which the write thread is told. -/
theorem Stopping.step {s t : State α cap} {a : Act} (h : Stopping s) (htold : Told s a)
    (hstep : (machine α cap).step s a = some t) : Stopping t := by
  cases a with
  | thread k => exact h.threadStep (threadStep_cases hstep)
  | pop =>
      obtain ⟨r, -, rfl⟩ := Option.map_eq_some_iff.mp hstep
      have hgoing := h.going
      exact ⟨⟨hgoing.thread, hgoing.user, hgoing.busy, hgoing.position⟩, h.dozing, h.asleep,
        h.before, h.told, h.joined⟩
  | wake =>
      obtain ⟨-, hstep⟩ := Option.ite_none_right_eq_some.mp hstep
      obtain rfl := Option.some.inj hstep
      exact h.notify
  | dtor =>
      simp only [machine, State.dtorStep] at hstep
      split at hstep
      · rename_i hdtor
        obtain rfl := Option.some.inj hstep
        have hstop := (h.before hdtor).1
        obtain ⟨hthread, huser, hbusy, hposition⟩ := h.going
        refine ⟨⟨hthread, huser, fun hpc => .inr ?_, hposition⟩, h.dozing, h.asleep, by simp,
          fun _ => ⟨rfl, htold hdtor⟩, by simp⟩
        exact (hbusy hpc).resolve_left fun hexit => Int.not_lt.mpr hstop hexit.2
      · rename_i hdtor
        obtain rfl := Option.some.inj hstep
        have hnotified := h.notify
        exact ⟨hnotified.going, hnotified.dozing, hnotified.asleep, by simp,
          fun _ => hnotified.told (.inl (by simp [hdtor])), by simp⟩
      · obtain ⟨hexited, hstep⟩ := Option.ite_none_right_eq_some.mp hstep
        obtain rfl := Option.some.inj hstep
        exact ⟨h.going, h.dozing, h.asleep, by simp, by simp, fun _ => hexited⟩
      · cases hstep

/-- **The step lemma** of a run in which the write thread hears. -/
theorem Live.step {s t : State α cap} {a : Act} (h : Live s) (hheard : Heard s a)
    (hstep : (machine α cap).step s a = some t) : Live t := by
  have hnext := h.toStopping.step hheard.told hstep
  cases a with
  | thread k => exact h.threadStep (threadStep_cases hstep)
  | pop =>
      obtain ⟨r, -, rfl⟩ := Option.map_eq_some_iff.mp hstep
      exact ⟨hnext, h.heard⟩
  | wake =>
      obtain ⟨hsleeping, hstep⟩ := Option.ite_none_right_eq_some.mp hstep
      obtain rfl := Option.some.inj hstep
      refine ⟨hnext, fun hjoin => h.toStopping.awake_of_notify fun hdozing => ?_⟩
      rw [(h.heard (by simpa using hjoin)).2] at hdozing
      cases hdozing
  | dtor =>
      refine ⟨hnext, fun hjoin => ?_⟩
      simp only [machine, State.dtorStep] at hstep
      split at hstep
      · obtain rfl := Option.some.inj hstep
        cases hjoin
      · rename_i hdtor
        obtain rfl := Option.some.inj hstep
        exact h.toStopping.awake_of_notify (hheard.2 hdtor)
      · obtain ⟨-, hstep⟩ := Option.ite_none_right_eq_some.mp hstep
        obtain rfl := Option.some.inj hstep
        cases hjoin
      · cases hstep

/-! ### A thread that does not -/

/-- **Untold**: the write thread has taken the -1 back, or is about to. -/
structure Untold (s : State α cap) : Prop where
  running : s.chan.thread ≠ .exited
  dtor : s.dtor = .notify ∨ s.dtor = .join
  untold : s.chan.m_out_samples_stop = 0 ∨ s.chan.thread = .reset

/-- The write thread is asleep in a `cv.wait`, or about to be. -/
def State.Dropping (s : State α cap) : Prop :=
  s.chan.thread = .asleep ∨
    s.wait ≠ .awake ∧ (s.chan.thread = .test ∨ s.chan.thread = .paused)

/-- **Deaf**: the write thread was not told, or sleeps through the notification. -/
def Deaf (s : State α cap) : Prop :=
  Untold s ∨ s.dtor = .join ∧ s.Dropping

/-- The write thread itself sets no stop but 0, and exits only for one below. -/
theorem stop_of_threadStep {s t : WriteThread.State α cap} (h : WriteThread.ThreadStep s t)
    (hstop : s.m_out_samples_stop = 0) : t.m_out_samples_stop = 0 ∧ t.thread ≠ .exited := by
  cases h with
  | exit hpc hexit => omega
  | _ => simp [hstop]

/-- A thread that is not told stays so. -/
theorem Untold.threadStep {s t : State α cap} (h : Untold s) (hstep : ThreadStep s t) :
    Untold t := by
  obtain ⟨hrunning, hdtor, hstop | hreset⟩ := h
  · cases hstep with
    | other htest hpaused hstep =>
        obtain ⟨hzero, hexited⟩ := stop_of_threadStep hstep hstop
        exact ⟨hexited, hdtor, .inl hzero⟩
    | doze | dozePaused | sleepPaused => exact ⟨hrunning, hdtor, .inl hstop⟩
    | _ => exact ⟨by simp, hdtor, .inl hstop⟩
  · cases hstep with
    | other htest hpaused hstep =>
        cases hstep with
        | reset hpc => exact ⟨by simp, hdtor, .inl rfl⟩
        | _ => simp_all
    | _ => simp_all

/-- Waking up does not help. -/
theorem Untold.notify {s : State α cap} (h : Untold s) : Untold s.notify := by
  obtain ⟨hrunning, hdtor, huntold⟩ := h
  rw [State.notify]
  split
  · rename_i hpc
    exact ⟨by simp, hdtor, .inl (huntold.resolve_right (by simp [hpc]))⟩
  · exact ⟨hrunning, hdtor, huntold⟩
  · exact ⟨hrunning, hdtor, huntold⟩

/-- **The step lemma** of a run in which the write thread is not told. -/
theorem Untold.step {s t : State α cap} {a : Act} (h : Untold s)
    (hstep : (machine α cap).step s a = some t) : Untold t := by
  cases a with
  | thread k => exact h.threadStep (threadStep_cases hstep)
  | pop =>
      obtain ⟨r, -, rfl⟩ := Option.map_eq_some_iff.mp hstep
      exact ⟨h.running, h.dtor, h.untold⟩
  | wake =>
      obtain ⟨-, hstep⟩ := Option.ite_none_right_eq_some.mp hstep
      obtain rfl := Option.some.inj hstep
      exact h.notify
  | dtor =>
      simp only [machine, State.dtorStep] at hstep
      split at hstep
      · rename_i hstop
        have hdtor := h.dtor
        simp [hstop] at hdtor
      · obtain rfl := Option.some.inj hstep
        exact ⟨h.notify.running, .inr rfl, h.notify.untold⟩
      · exact absurd (Option.ite_none_right_eq_some.mp hstep).1 h.running
      · cases hstep

/-- It falls asleep, and stays so. -/
theorem State.Dropping.threadStep {s t : State α cap} (h : s.Dropping) (hstep : ThreadStep s t) :
    t.Dropping ∧ t.dtor = s.dtor := by
  rcases h with hasleep | ⟨hwait, hpc⟩
  · cases hstep with
    | other htest hpaused hstep => cases hstep <;> simp_all
    | _ => simp_all
  · cases hstep with
    | sleep hpc hdozing => exact ⟨.inl rfl, rfl⟩
    | sleepPaused hpc hdozing => exact ⟨.inr ⟨by simp, .inr hpc⟩, rfl⟩
    | other htest hpaused hstep => exact absurd hpc (by simp [htest, hpaused])
    | _ => contradiction

/-- It has not returned. -/
theorem State.Dropping.running {s : State α cap} (h : s.Dropping) : s.chan.thread ≠ .exited := by
  rcases h with hpc | ⟨-, hpc | hpc⟩ <;> simp [hpc]

/-- **The step lemma** of a run in which it does not hear. -/
theorem Deaf.step {s t : State α cap} {a : Act} (h : Deaf s) (hunstirred : Unstirred s a)
    (hstep : (machine α cap).step s a = some t) : Deaf t := by
  rcases h with huntold | ⟨hjoin, hdropping⟩
  · exact .inl (huntold.step hstep)
  cases a with
  | thread k =>
      obtain ⟨hnext, hsame⟩ := hdropping.threadStep (threadStep_cases hstep)
      exact .inr ⟨hsame.trans hjoin, hnext⟩
  | pop =>
      obtain ⟨r, -, rfl⟩ := Option.map_eq_some_iff.mp hstep
      exact .inr ⟨hjoin, hdropping⟩
  | wake => exact absurd hjoin hunstirred
  | dtor =>
      simp only [machine, State.dtorStep, hjoin] at hstep
      exact absurd (Option.ite_none_right_eq_some.mp hstep).1 hdropping.running

/-- The thread is not joined. -/
theorem Untold.not_done {s : State α cap} (h : Untold s) : s.dtor ≠ .done := by
  rcases h.dtor with hdtor | hdtor <;> simp [hdtor]

/-- Nor is it here. -/
theorem Deaf.not_done {s : State α cap} (h : Deaf s) : s.dtor ≠ .done := by
  rcases h with huntold | ⟨hjoin, -⟩
  · exact huntold.not_done
  · simp [hjoin]

/-- A step in which the write thread is not told. -/
theorem untold_of_not_told {s t : State α cap} {a : Act} (htold : ¬Told s a)
    (hstep : (machine α cap).step s a = some t) : Untold t := by
  cases a with
  | thread k | pop | wake => exact absurd trivial htold
  | dtor =>
      obtain ⟨hdtor, hreset⟩ := Classical.not_imp.mp htold
      rw [not_not] at hreset
      simp only [machine, State.dtorStep, hdtor, Option.some.injEq] at hstep
      subst hstep
      exact ⟨by simp [hreset], .inl rfl, .inr hreset⟩

/-- A step in which it does not hear. -/
theorem deaf_of_not_heard {s t : State α cap} {a : Act} (h : Live s) (hheard : ¬Heard s a)
    (hstep : (machine α cap).step s a = some t) : Deaf t := by
  cases a with
  | thread k | pop | wake => exact absurd trivial hheard
  | dtor =>
      rcases not_and_or.mp hheard with hheard | hheard
      · exact .inl (untold_of_not_told (a := .dtor) hheard hstep)
      · obtain ⟨hdtor, hdozing⟩ := Classical.not_imp.mp hheard
        rw [not_not] at hdozing
        have hpc := h.dozing hdozing
        have hnotify : s.notify = s := by
          rcases hpc with hpc | hpc <;> simp [State.notify, hpc, hdozing]
        simp only [machine, State.dtorStep, hdtor, hnotify, Option.some.injEq] at hstep
        subst hstep
        exact .inr ⟨rfl, .inr ⟨by simp [hdozing], hpc⟩⟩

/-! ### On the way to the exit -/

/-- How many steps the write thread still takes, at most, once it is told to exit. -/
def rank (c : WriteThread.State α cap) : ℕ :=
  match c.thread with
  | .paused => 12
  | .loop => if c.it = c.m_out_samples_buf.length then 11 else 8
  | .again => 10
  | .start => 9
  | .pauseTest => 7
  | .stopTest => 6
  | .finish => 5
  | .unlock => 4
  | .lock | .woken => 3
  | .test => 2
  | .checkExit => 1
  | .asleep | .reset | .exited => 0

/-- There are 12 steps at most. -/
theorem rank_le (c : WriteThread.State α cap) : rank c ≤ 12 := by
  rw [rank]
  split
  case h_2 => split <;> decide
  all_goals decide

/-- Each step of a thread that is told brings it nearer to the exit. -/
theorem Live.rank_lt {s t : State α cap} (h : Live s) (hjoin : s.dtor = .join)
    (hstep : ThreadStep s t) : rank t.chan < rank s.chan := by
  obtain ⟨hgiven, hreset⟩ := h.told (.inr hjoin)
  obtain ⟨hasleep, hawake⟩ := h.heard hjoin
  cases hstep with
  | found hpc hwait hfound => simp [rank, hpc]
  | doze hpc hwait hstop => omega
  | dozePaused hpc hwait hstop => omega
  | sleep hpc hwait =>
      rw [hawake] at hwait
      cases hwait
  | sleepPaused hpc hwait =>
      rw [hawake] at hwait
      cases hwait
  | goOn hpc hwait hstop =>
      simp only [rank, hpc]
      split <;> decide
  | other htest hpaused hstep =>
      cases hstep with
      | take hpc hmtx => rcases hpc with hpc | hpc <;> simp [rank, hpc]
      | stay hpc hstop | pause hpc hstop | turn hpc hstop => omega
      | reset hpc => exact absurd hpc hreset
      | sleep hpc hbuf => exact absurd hpc htest
      | goOn hpc hstop => exact absurd hpc hpaused
      | start hpc =>
          have hbuf := (h.going.busy (by rw [hpc]; rfl)).resolve_left fun hexit => by
            rw [hpc] at hexit
            cases hexit.1
          have hlen := List.length_pos_iff.mpr hbuf
          have hne : ¬0 = s.chan.m_out_samples_buf.length := by omega
          simp [rank, hpc, hne]
      | push hpc k q hit hk hq => simp [rank, hpc, hit]
      | pushed hpc hit => simp [rank, hpc, hit]
      | exit hpc hstop | unpaused hpc hstop | stopped hpc hstop | wrap hpc hcyclic n
      | done hpc hcyclic | wipe hpc hwipe | keep hpc hstop hcyclic | unlock hpc
      | found hpc hfound =>
          simp [rank, hpc]

/-- And it is never stuck before. -/
theorem Live.exists_step {s : State α cap} (h : Live s) (hjoin : s.dtor = .join)
    (hrunning : s.chan.thread ≠ .exited) : ∃ t, s.threadStep 0 = some t := by
  obtain ⟨hasleep, hawake⟩ := h.heard hjoin
  have hfree : s.chan.thread.holds = false → s.chan.m_out_samples_mtx = none := by
    intro hholds
    have hthread : s.chan.m_out_samples_mtx ≠ some .thread := fun hmtx => by
      rw [h.going.thread.mpr hmtx] at hholds
      cases hholds
    cases hmtx : s.chan.m_out_samples_mtx with
    | none => rfl
    | some owner =>
        cases owner with
        | thread => exact absurd hmtx hthread
        | user => exact absurd hmtx h.going.user
  rw [State.threadStep]
  cases hpc : s.chan.thread with
  | asleep => exact absurd hpc hasleep
  | exited => exact absurd hpc hrunning
  | test | paused =>
      simp only [hawake]
      split <;> exact ⟨_, rfl⟩
  | lock | woken =>
      have hmtx := hfree (by rw [hpc]; rfl)
      simp [WriteThread.State.threadStep, hpc, hmtx]
  | loop =>
      have hit := h.going.position (by rw [hpc]; rfl)
      have hpush : s.chan.m_out_samples_q.pushAll [] = some s.chan.m_out_samples_q :=
        BoundedQueue.pushAll_eq_some_iff.mpr
          ⟨by simpa using s.chan.m_out_samples_q.length_le, by simp⟩
      simp only [WriteThread.State.threadStep, hpc, Nat.add_zero, hit, if_true, List.take_zero,
        hpush, Option.map_some]
      split <;> exact ⟨_, rfl⟩
  | reset | start | unlock => exact ⟨_, by simp only [WriteThread.State.threadStep, hpc]; rfl⟩
  | checkExit | pauseTest | stopTest | again | finish =>
      simp only [WriteThread.State.threadStep, hpc]
      split <;> exact ⟨_, rfl⟩

/-! ### Whole runs -/

/-- The action is a step of the write thread. -/
def Act.ofThread : Act → Bool
  | .thread _ => true
  | .pop | .wake | .dtor => false

/-- The write thread has heard, and `join` is entered. -/
def Joining (s : State α cap) : Prop := Live s ∧ (s.dtor = .join ∨ s.dtor = .done)

/-- The thread does not sleep any more. -/
theorem Joining.not_sleeping {s : State α cap} (h : Joining s) : ¬s.Sleeping := by
  obtain ⟨hlive, hjoin | hdone⟩ := h
  · obtain ⟨hasleep, hawake⟩ := hlive.heard hjoin
    rintro (h | ⟨-, hwait⟩)
    · exact hasleep h
    · rw [hawake] at hwait
      cases hwait
  · have hexited := hlive.joined hdone
    rintro (h | ⟨h, -⟩) <;> rw [hexited] at h <;> cases h

/-- Each step leads nearer to the end. -/
theorem Joining.step {s t : State α cap} {a : Act} (h : Joining s)
    (hstep : (machine α cap).step s a = some t) :
    Joining t ∧ rank t.chan + a.ofThread.toNat ≤ rank s.chan := by
  obtain ⟨hlive, hdtor⟩ := h
  have hheard : Heard s a := by
    cases a with
    | thread k | pop | wake => trivial
    | dtor => rcases hdtor with hdtor | hdtor <;> simp [Heard, hdtor]
  have hnext := hlive.step hheard hstep
  cases a with
  | thread k =>
      have hthread := threadStep_cases hstep
      have hsame : t.dtor = s.dtor := by
        cases hthread <;> rfl
      rcases hdtor with hjoin | hdone
      · exact ⟨⟨hnext, .inl (hsame.trans hjoin)⟩, hlive.rank_lt hjoin hthread⟩
      · have hexited := hlive.joined hdone
        simp [machine, State.threadStep, WriteThread.State.threadStep, hexited] at hstep
  | pop =>
      obtain ⟨r, -, rfl⟩ := Option.map_eq_some_iff.mp hstep
      exact ⟨⟨hnext, hdtor⟩, Nat.le_refl _⟩
  | wake => exact absurd (Option.ite_none_right_eq_some.mp hstep).1 (not_sleeping ⟨hlive, hdtor⟩)
  | dtor =>
      simp only [machine, State.dtorStep] at hstep
      rcases hdtor with hjoin | hdone
      · rw [hjoin] at hstep
        obtain ⟨-, hstep⟩ := Option.ite_none_right_eq_some.mp hstep
        obtain rfl := Option.some.inj hstep
        exact ⟨⟨hnext, .inr rfl⟩, Nat.le_refl _⟩
      · rw [hdone] at hstep
        cases hstep

/-- From there the thread can be joined, without a spurious wake-up. -/
theorem Joining.reaches {s : State α cap} (h : Joining s) :
    ∃ bs t, (machine α cap).Meets Unstirred s bs ∧ (machine α cap).run s bs = some t ∧
      t.dtor = .done := by
  obtain ⟨hlive, hjoin | hdone⟩ := h
  · have hstep : ∀ s : State α cap, Live s ∧ s.dtor = .join → s.chan.thread = .exited ∨
        ∃ t, (machine α cap).step s (.thread 0) = some t ∧ (Live t ∧ t.dtor = .join) ∧
          rank t.chan < rank s.chan := by
      rintro s ⟨hlive, hjoin⟩
      by_cases hexited : s.chan.thread = .exited
      · exact .inl hexited
      · obtain ⟨t, ht⟩ := hlive.exists_step hjoin hexited
        have hthread := threadStep_cases ht
        have hsame : t.dtor = s.dtor := by
          cases hthread <;> rfl
        exact .inr ⟨t, ht, ⟨hlive.threadStep hthread, hsame.trans hjoin⟩,
          hlive.rank_lt hjoin hthread⟩
    obtain ⟨k, u, hu, ⟨hlive, hjoin⟩, hexited⟩ :=
      Machine.reaches_of_rank hstep ⟨hlive, hjoin⟩
    refine ⟨List.replicate k (.thread 0) ++ [.dtor], { u with dtor := .done }, ?_, ?_, rfl⟩
    · have hwake : ∀ a ∈ List.replicate k (Act.thread 0) ++ [.dtor], a ≠ .wake := by
        intro a ha
        rcases List.mem_append.mp ha with ha | ha
        · rw [(List.mem_replicate.mp ha).2]
          simp
        · rw [List.mem_singleton.mp ha]
          simp
      refine (Machine.meets_of_forall hwake).imp fun s a ha => ?_
      cases a with
      | thread k | pop | dtor => trivial
      | wake => exact absurd rfl ha
    · refine (Machine.run_concat_eq_some_iff _).mpr ⟨u, hu, ?_⟩
      simp [machine, State.dtorStep, hjoin, hexited]
  · exact ⟨[], s, trivial, rfl, hdone⟩

/-- A thread that is told can be joined after it has woken up. -/
theorem Stopping.reaches {s : State α cap} (h : Stopping s) (hjoin : s.dtor = .join) :
    ∃ bs t, (machine α cap).run s bs = some t ∧ t.dtor = .done := by
  have hwoken : ∀ s : State α cap, Stopping s → s.dtor = .join → s.Sleeping →
      ∃ bs t, (machine α cap).run s bs = some t ∧ t.dtor = .done := by
    intro s h hjoin hsleeping
    have hstep : (machine α cap).step s .wake = some s.notify := if_pos hsleeping
    have hdozing : s.wait ≠ .dozing := by
      intro hdozing
      rcases hsleeping with hpc | ⟨-, hwait⟩
      · rcases h.dozing hdozing with hpc' | hpc' <;> rw [hpc] at hpc' <;> cases hpc'
      · rw [hdozing] at hwait
        cases hwait
    have hlive : Live s.notify := ⟨h.notify, fun _ => h.awake_of_notify hdozing⟩
    obtain ⟨bs, t, -, ht, hdone⟩ := Joining.reaches ⟨hlive, .inl (by simpa using hjoin)⟩
    exact ⟨.wake :: bs, t, (Machine.run_cons_eq_some_iff _).mpr ⟨_, hstep, ht⟩, hdone⟩
  cases hwait : s.wait with
  | awake =>
      by_cases hasleep : s.chan.thread = .asleep
      · exact hwoken s h hjoin (.inl hasleep)
      · obtain ⟨bs, t, -, ht, hdone⟩ := Joining.reaches ⟨⟨h, fun _ => ⟨hasleep, hwait⟩⟩, .inl hjoin⟩
        exact ⟨bs, t, ht, hdone⟩
  | dozing =>
      -- it goes to sleep first
      have hsleep : ∃ u, s.threadStep 0 = some u ∧ u.dtor = .join ∧ u.Sleeping := by
        rcases h.dozing hwait with hpc | hpc
        · refine ⟨{ s with
            chan := { s.chan with m_out_samples_mtx := none, thread := .asleep }
            wait := .awake }, ?_, hjoin, .inl rfl⟩
          simp only [State.threadStep, hpc, hwait]
        · refine ⟨{ s with wait := .asleep }, ?_, hjoin, .inr ⟨hpc, rfl⟩⟩
          simp only [State.threadStep, hpc, hwait]
      obtain ⟨u, hu, hujoin, hsleeping⟩ := hsleep
      obtain ⟨bs, t, ht, hdone⟩ :=
        hwoken u (h.threadStep (threadStep_cases hu)) hujoin hsleeping
      exact ⟨.thread 0 :: bs, t, (Machine.run_cons_eq_some_iff _).mpr ⟨u, hu, ht⟩, hdone⟩
  | asleep => exact hwoken s h hjoin (.inr ⟨h.asleep hwait, hwait⟩)

section

variable {cs : List (WriteThread.Act α)} {c : WriteThread.State α cap}
  (hc : (WriteThread.machine α cap).run (.init α cap) cs = some c) (hidle : c.user = .idle)
  {wait : Wait} (hdozing : wait = .dozing → c.thread = .test ∨ c.thread = .paused)
  (hasleep : wait = .asleep → c.thread = .paused) {as : List Act} {s : State α cap}
  (hrun : (machine α cap).run ⟨c, wait, .stop⟩ as = some s)

include hc hidle hdozing hasleep

/-- The write thread is live when the destructor is called. -/
theorem live_of_run : Live ⟨c, wait, .stop⟩ := by
  have hsound : Sound c :=
    Machine.invariant (fun _ _ _ hs hstep => Sound.step hs hstep) .init hc
  exact .start hsound hidle hdozing hasleep

include hrun

/-- The write thread is told, or was not. -/
theorem stopping_or_untold : ((machine α cap).Meets Told ⟨c, wait, .stop⟩ as ∧ Stopping s) ∨
    (¬(machine α cap).Meets Told ⟨c, wait, .stop⟩ as ∧ Untold s) :=
  Machine.sound_or_broken (fun _ _ _ hs hok hstep => Stopping.step hs hok hstep)
    (fun _ _ _ _ hok hstep => untold_of_not_told hok hstep)
    (fun _ _ _ hs hstep => Untold.step hs hstep)
    (live_of_run hc hidle hdozing hasleep).toStopping hrun

/-- It has heard, or will not unless it wakes up by itself. -/
theorem live_or_deaf (hunstirred : (machine α cap).Meets Unstirred ⟨c, wait, .stop⟩ as) :
    ((machine α cap).Meets Heard ⟨c, wait, .stop⟩ as ∧ Live s) ∨
      (¬(machine α cap).Meets Heard ⟨c, wait, .stop⟩ as ∧ Deaf s) :=
  Machine.sound_or_broken_of_meets (fun _ _ _ hs _ hok hstep => Live.step hs hok hstep)
    (fun _ _ _ hs _ hok hstep => deaf_of_not_heard hs hok hstep)
    (fun _ _ _ hs hside hstep => Deaf.step hs hside hstep)
    (live_of_run hc hidle hdozing hasleep) hunstirred hrun

/-- **When `join` returns.** A device on which nobody is in a call any more is destroyed, in any
interleaving of the destructor with the write thread. The thread can be joined exactly when the -1
does not come between its test of the stop and its `stop = 0`, and if it does not wake up by itself
exactly when the notification does not come between the test of a `cv.wait` and the sleep, either.
It then takes 12 steps more at most, and there is always a next step until it is joined. -/
theorem join_returns_iff (hjoin : s.dtor = .join) :
    ((machine α cap).Meets Told ⟨c, wait, .stop⟩ as ↔
        ∃ bs t, (machine α cap).run s bs = some t ∧ t.dtor = .done) ∧
      ((machine α cap).Meets Unstirred ⟨c, wait, .stop⟩ as →
        ((machine α cap).Meets Heard ⟨c, wait, .stop⟩ as ↔
          ∃ bs t, (machine α cap).Meets Unstirred s bs ∧ (machine α cap).run s bs = some t ∧
            t.dtor = .done)) ∧
      ((machine α cap).Meets Heard ⟨c, wait, .stop⟩ as →
        ∀ bs t, (machine α cap).run s bs = some t → bs.countP Act.ofThread ≤ 12 ∧
          (t.dtor = .done ∨
            ∃ a u, a ≠ .pop ∧ a ≠ .wake ∧ (machine α cap).step t a = some u)) := by
  refine ⟨?_, fun hunstirred => ?_, fun hmeets bs t ht => ?_⟩
  · rcases stopping_or_untold hc hidle hdozing hasleep hrun with ⟨hmeets, hstopping⟩ | ⟨hmeets, hs⟩
    · exact iff_of_true hmeets (hstopping.reaches hjoin)
    · refine iff_of_false hmeets ?_
      rintro ⟨bs, t, ht, hdone⟩
      have hend : Untold t := Machine.invariant (fun _ _ _ hs hstep => Untold.step hs hstep) hs ht
      exact hend.not_done hdone
  · rcases live_or_deaf hc hidle hdozing hasleep hrun hunstirred with
      ⟨hmeets, hlive⟩ | ⟨hmeets, hs⟩
    · exact iff_of_true hmeets (Joining.reaches ⟨hlive, .inl hjoin⟩)
    · refine iff_of_false hmeets ?_
      rintro ⟨bs, t, hbs, ht, hdone⟩
      have hend : Deaf t :=
        Machine.invariant_of_meets (fun _ _ _ hs hok hstep => Deaf.step hs hok hstep) hs hbs ht
      exact hend.not_done hdone
  · have hlive : Live s :=
      Machine.invariant_of_meets (fun _ _ _ hs hok hstep => Live.step hs hok hstep)
        (live_of_run hc hidle hdozing hasleep) hmeets hrun
    have hjoining : Joining s := ⟨hlive, .inl hjoin⟩
    refine ⟨?_, ?_⟩
    · have hcount : bs.countP Act.ofThread + rank t.chan ≤ rank s.chan :=
        Machine.countP_le_of_rank Act.ofThread (fun _ _ _ hs hstep => Joining.step hs hstep)
          hjoining ht
      exact Nat.le_trans (Nat.le_add_right _ _) (Nat.le_trans hcount (rank_le _))
    · have hend : Joining t := Machine.invariant (fun _ _ _ hs hstep => (Joining.step hs hstep).1)
        hjoining ht
      obtain ⟨hlive, hjoin | hdone⟩ := hend
      · by_cases hexited : t.chan.thread = .exited
        · refine .inr ⟨.dtor, { t with dtor := .done }, by simp, by simp, ?_⟩
          simp [machine, State.dtorStep, hjoin, hexited]
        · obtain ⟨u, hu⟩ := hlive.exists_step hjoin hexited
          exact .inr ⟨.thread 0, u, by simp, by simp, hu⟩
      · exact .inl hdone

end

/-- The destructor is called when the write thread has just found no buffer. -/
def dozed : List Act := [.thread 0, .thread 0, .dtor, .dtor]

/-- It returns only if the write thread wakes up by itself. -/
theorem join_returns_iff_dozed : ∃ s : State ℕ 1,
    (machine ℕ 1).run ⟨.init ℕ 1, .awake, .stop⟩ dozed = some s ∧
      (∃ bs t, (machine ℕ 1).run s bs = some t ∧ t.dtor = .done) ∧
      ¬∃ bs t, (machine ℕ 1).Meets Unstirred s bs ∧ (machine ℕ 1).run s bs = some t ∧
        t.dtor = .done := by
  have hrun : ((machine ℕ 1).run ⟨.init ℕ 1, .awake, .stop⟩ dozed).map State.dtor =
      some .join := by
    decide +kernel
  obtain ⟨s, hs, hjoin⟩ := Option.map_eq_some_iff.mp hrun
  have hinit : (WriteThread.machine ℕ 1).run (.init ℕ 1) [] = some (.init ℕ 1) := rfl
  have hreturns := join_returns_iff hinit rfl (by simp) (by simp) hs hjoin
  refine ⟨s, hs, hreturns.1.mp (by decide +kernel), fun h => ?_⟩
  have hmeets := (hreturns.2.1 (by decide +kernel)).mpr h
  exact absurd hmeets (by decide +kernel)

end Libsmu.WriteThreadExit
